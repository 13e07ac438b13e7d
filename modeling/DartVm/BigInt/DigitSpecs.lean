import DartVm.BigInt.Digits
import DartVm.Library.CountedLoop
import DartVm.Library.Positional
import Mathlib.Tactic.LinearCombination

/-! # What the digit loops compute

A loop over a digit array is described by the indices it writes (`Writes`) and the number that the
written digits stand for (`valueOf`).  The carry loops share the invariant `Carried`: the digits
written so far and the carry make up the sum so far.

* `Carried.step`: one step of a carry loop, from which the loops follow by induction.
* `absAdd_spec`, `absSub_spec`: addition and subtraction, also in place.
* `lsh_spec`, `rsh_spec`: shifts, also in place.
* `mulAdd_spec`: adds a multiple to an accumulator. -/

namespace DartVm.BigInt

open Postcondition CountedLoop Positional Nat List

/-! ## Arrays as digit functions -/

/-- The digit at an index, zero beyond the end. -/
def digitAt (digits : Digits) (i : ℕ) : ℕ := digits.getD i 0

/-- The elements of the array are digits. -/
def IsDigits (digits : Digits) : Prop := ∀ i, digitAt digits i < digitBase

/-- The number that the first `used` digits stand for. -/
def valueOf (digits : Digits) (used : ℕ) : ℕ := value digitBase (digitAt digits) used

/-- The same from an index on. -/
abbrev valueFrom (digits : Digits) (i n : ℕ) : ℕ :=
  value digitBase (fun k => digitAt digits (i + k)) n

variable {digits d r r₀ r' : Digits} {i j k n used lo hi v : ℕ}

theorem digitBase_eq : digitBase = 2 ^ 32 := rfl

/-- The base is positive. -/
theorem digitBase_pos : 0 < digitBase := by decide

/-- Loading in bounds gives the digit. -/
theorem load_eq (h : i < digits.length) : load digits i = some (digitAt digits i) := by
  rw [load, digitAt, getD_eq_getElem?_getD, getElem?_eq_getElem h]
  rfl

/-- Storing in bounds keeps the low 32 bits. -/
theorem store_eq (h : i < digits.length) :
    store digits i v = some (digits.set i (v % digitBase)) := if_pos h

/-- The digits after one has been replaced. -/
theorem digitAt_set (h : i < digits.length) :
    digitAt (digits.set i v) k = if k = i then v else digitAt digits k := by
  rw [digitAt, digitAt, getD_eq_getElem?_getD, getD_eq_getElem?_getD, getElem?_set]
  by_cases hk : i = k
  · rw [if_pos hk, if_pos (hk ▸ h), if_pos hk.symm]
    rfl
  · rw [if_neg hk, if_neg (Ne.symm hk)]

@[simp] theorem valueOf_zero : valueOf digits 0 = 0 := rfl

/-- One more digit at the top of a number. -/
theorem valueOf_succ :
    valueOf digits (n + 1) = valueOf digits n + digitAt digits n * digitBase ^ n :=
  value_succ

/-- Equal digits stand for equal numbers. -/
theorem valueOf_congr (h : ∀ i < n, digitAt r i = digitAt r' i) : valueOf r n = valueOf r' n :=
  value_congr h

/-- A number of `n` digits is below the `n`-th power of the base. -/
theorem IsDigits.valueOf_lt (h : IsDigits digits) : valueOf digits n < digitBase ^ n :=
  value_lt fun i _ => h i

/-- A number is its low part and its shifted high part. -/
theorem valueOf_add : valueOf digits (k + n)
    = valueOf digits k + digitBase ^ k * valueFrom digits k n :=
  value_add

/-- A number is its lowest digit and the rest. -/
theorem valueFrom_succ' : valueFrom digits i (n + 1)
    = digitAt digits i + digitBase * valueFrom digits (i + 1) n := by
  simp only [valueFrom, value_succ', add_zero, add_assoc, add_comm 1]

/-- All digits from the lowest on. -/
theorem valueFrom_zero : valueFrom digits 0 n = valueOf digits n := by
  simp [valueFrom, valueOf]

/-! ## The indices that a loop writes -/

/-- `r'` is `r` with new digits at some of the indices from `lo` up to `hi - 1`. -/
structure Writes (lo hi : ℕ) (r r' : Digits) : Prop where
  length_eq : r'.length = r.length
  isDigits : IsDigits r → IsDigits r'
  digitAt_eq : ∀ k, k < lo ∨ hi ≤ k → digitAt r' k = digitAt r k

namespace Writes

theorem refl : Writes lo hi r r := ⟨rfl, id, fun _ _ => rfl⟩

/-- A larger range also covers what is written. -/
theorem mono {lo' hi' : ℕ} (h : Writes lo hi r r') (hle : lo' ≤ lo ∧ hi ≤ hi') :
    Writes lo' hi' r r' :=
  ⟨h.length_eq, h.isDigits, fun k hk => h.digitAt_eq k (by omega)⟩

theorem trans {r'' : Digits} {lo₁ hi1 lo₂ hi2 : ℕ} (h : Writes lo₁ hi1 r r')
    (h' : Writes lo₂ hi2 r' r'') (hle : (lo ≤ lo₁ ∧ lo ≤ lo₂) ∧ hi1 ≤ hi ∧ hi2 ≤ hi) :
    Writes lo hi r r'' :=
  ⟨h'.length_eq.trans h.length_eq, fun hr => h'.isDigits (h.isDigits hr),
    fun k hk => (h'.digitAt_eq k (by omega)).trans (h.digitAt_eq k (by omega))⟩

/-- Replacing a digit writes at one place. -/
theorem set (hi : i < r.length) : Writes i (i + 1) r (r.set i (v % digitBase)) := by
  refine ⟨length_set, fun hr k => ?_, fun k hk => ?_⟩
  · rw [digitAt_set hi]
    split_ifs
    · exact mod_lt _ digitBase_pos
    · exact hr k
  · rw [digitAt_set hi, if_neg (by omega)]

/-- Numbers below the written range stay. -/
theorem valueOf_eq (h : Writes lo hi r r') (hn : n ≤ lo) : valueOf r' n = valueOf r n :=
  valueOf_congr fun i hi => h.digitAt_eq i (by omega)

/-- Numbers above the written range stay. -/
theorem valueFrom_eq (h : Writes lo hi r r') (hi : hi ≤ i) : valueFrom r' i n = valueFrom r i n :=
  value_congr fun k _ => h.digitAt_eq (i + k) (by omega)

/-- Digits of an operand outside the written range stay, also if it is the array written to. -/
theorem get_digitAt_eq (h : Writes lo hi r r') (x : Operand) (hk : k < lo ∨ hi ≤ k) :
    digitAt (x.get r') k = digitAt (x.get r) k := by
  cases x with
  | result => exact h.digitAt_eq k hk
  | array d => rfl

/-- What is added to the low digits is added to the number, if nothing above has been written. -/
theorem valueOf_add {l a u : ℕ} (h : Writes 0 l r r') (hl : l ≤ u)
    (hvalue : valueOf r' l = valueOf r l + a) : valueOf r' u = valueOf r u + a := by
  obtain ⟨m, rfl⟩ := Nat.exists_eq_add_of_le hl
  rw [BigInt.valueOf_add, BigInt.valueOf_add, h.valueFrom_eq le_rfl]
  omega

/-- Writing changes no length. -/
theorem get_length_eq (h : Writes lo hi r r') (x : Operand) :
    (x.get r').length = (x.get r).length := by
  cases x with
  | result => exact h.length_eq
  | array d => rfl

end Writes

/-- Storing in bounds succeeds and changes one digit. -/
theorem store_spec (h : i < r.length) : Returns False (store r i v) fun r' =>
    Writes i (i + 1) r r' ∧ digitAt r' i = v % digitBase := by
  rw [store_eq h]
  exact ⟨Writes.set h, by rw [digitAt_set h, if_pos rfl]⟩

/-- Storing after other writes. -/
theorem Writes.returns_store (h : Writes lo hi r r') (hi : i < r.length) :
    Returns False (store r' i v) fun r'' =>
      Writes i (i + 1) r' r'' ∧ digitAt r'' i = v % digitBase :=
  store_spec (by rwa [h.length_eq])

/-- An operand still holds its digit at an index that was not written. -/
theorem Writes.load_get (h : Writes lo hi r r') (x : Operand) (hk : k < lo ∨ hi ≤ k)
    (hlen : k < (x.get r).length) :
    load (x.get r') k = some (digitAt (x.get r) k) := by
  rw [load_eq (by rwa [h.get_length_eq]), h.get_digitAt_eq x hk]

/-! ## Allocation and copies -/

/-- `_newDigits` makes an even number of digits. -/
theorem length_newDigits : (newDigits n).length = n + n % 2 := by
  rw [newDigits, length_replicate, and_one_is_mod]

/-- New digits are zero. -/
theorem digitAt_newDigits : digitAt (newDigits n) i = 0 := by
  rw [digitAt, newDigits, getD_eq_getElem?_getD, getElem?_replicate]
  split_ifs <;> rfl

/-- New digits are digits. -/
theorem isDigits_newDigits : IsDigits (newDigits n) := fun i => by
  rw [digitAt_newDigits]
  exact digitBase_pos

/-- **A loop that fills a range of digits** from a source that does not fail. -/
theorem fillDigits_spec {source : ℕ → Option ℕ} {f : ℕ → ℕ} (hhi : hi ≤ r.length)
    (hsource : ∀ i, lo ≤ i → i < hi → source i = some (f i) ∧ f i < digitBase) :
    Returns False (fillDigits lo hi source r) fun r' =>
      Writes lo hi r r' ∧ ∀ i, lo ≤ i → i < hi → digitAt r' i = f i := by
  rcases le_total hi lo with hle | hle
  · rw [fillDigits, Nat.sub_eq_zero_of_le hle]
    exact ⟨Writes.refl, fun i h1 h2 => absurd h2 (by omega)⟩
  refine (returns_up (fun i r' => Writes lo hi r r' ∧ ∀ k, lo ≤ k → k < i → digitAt r' k = f k)
    ⟨Writes.refl, fun k h1 h2 => absurd h2 (not_lt.mpr h1)⟩ ?_).mono ?_
  · rintro i r₁ hlo hi' ⟨hw, hf⟩
    obtain ⟨hsrc, hlt⟩ := hsource i hlo (by omega)
    refine returns_bind_of_eq hsrc ((hw.returns_store (by omega)).mono ?_)
    rintro r₂ ⟨hw2, hi2⟩
    refine ⟨hw.trans hw2 (by omega), fun k h1 h2 => ?_⟩
    rcases Nat.lt_succ_iff_lt_or_eq.mp h2 with hk | rfl
    · rw [hw2.digitAt_eq k (.inl hk), hf k h1 hk]
    · rw [hi2, mod_eq_of_lt hlt]
  · rintro r₁ ⟨hw, hf⟩
    exact ⟨hw, fun i h1 h2 => hf i h1 (by omega)⟩

/-- `_cloneDigits` copies a range of digits and clears the rest. -/
theorem cloneDigits_spec {start : ℕ} (hd : IsDigits digits) (hfrom : start ≤ hi)
    (hhi : hi ≤ digits.length) (hn : hi - start ≤ n + n % 2) :
    Returns False (cloneDigits digits start hi n) fun r =>
      r.length = n + n % 2 ∧ IsDigits r ∧
        ∀ i, digitAt r i = if i < hi - start then digitAt digits (start + i) else 0 := by
  refine (fillDigits_spec (by rw [length_newDigits]; exact hn)
    fun i _ hi => ⟨load_eq (by omega), hd _⟩).mono ?_
  rintro r ⟨hw, hr⟩
  refine ⟨by rw [hw.length_eq, length_newDigits], hw.isDigits isDigits_newDigits, fun i => ?_⟩
  split_ifs with hi
  · exact hr i (zero_le i) hi
  · rw [hw.digitAt_eq i (.inr (by omega)), digitAt_newDigits]

/-- Clearing the first `n` digits. -/
theorem clearDigits_spec (hn : n ≤ r.length) : Returns False (clearDigits n r) fun r' =>
    Writes 0 n r r' ∧ ∀ i < n, digitAt r' i = 0 := by
  refine (returns_down (fun i r' => Writes 0 n r r' ∧ ∀ k, i ≤ k → k < n → digitAt r' k = 0)
    ⟨Writes.refl, fun k h1 h2 => absurd h2 (not_lt.mpr h1)⟩ ?_).mono ?_
  · rintro i r₁ hi ⟨hw, hzero⟩
    refine (hw.returns_store (by omega)).mono ?_
    rintro r₂ ⟨hw2, hi2⟩
    refine ⟨hw.trans hw2 (by omega), fun k h1 h2 => ?_⟩
    rcases eq_or_lt_of_le h1 with rfl | hk
    · rw [hi2, zero_mod]
    · rw [hw2.digitAt_eq k (.inr hk), hzero k hk h2]
  · rintro r₁ ⟨hw, hzero⟩
    exact ⟨hw, fun i hi => hzero i (zero_le i) hi⟩

variable {x : Operand}

/-- The upward move works in place: starting at the top, it overwrites no digit that
it still reads. -/
theorem moveUp_spec (hx : IsDigits (x.get r)) (hxlen : used ≤ (x.get r).length)
    (hlen : used + n ≤ r.length) : Returns False (moveUp x used n r) fun r' =>
      Writes n (used + n) r r' ∧ ∀ i < used, digitAt r' (i + n) = digitAt (x.get r) i := by
  refine (returns_down (fun i r' => Writes (i + n) (used + n) r r' ∧
    ∀ k, i ≤ k → k < used → digitAt r' (k + n) = digitAt (x.get r) k)
    ⟨Writes.refl, fun k h1 h2 => absurd h2 (not_lt.mpr h1)⟩ ?_).mono ?_
  · rintro i r₁ hi ⟨hw, hmoved⟩
    refine returns_bind_of_eq (hw.load_get x (by omega) (by omega))
      ((hw.returns_store (by omega)).mono ?_)
    rintro r₂ ⟨hw2, hi2⟩
    refine ⟨hw.trans hw2 (by omega), fun k h1 h2 => ?_⟩
    rcases eq_or_lt_of_le h1 with rfl | hk
    · rw [hi2, mod_eq_of_lt (hx _)]
    · rw [hw2.digitAt_eq _ (.inr (by omega)), hmoved k hk h2]
  · rintro r₁ ⟨hw, hmoved⟩
    exact ⟨by simpa only [zero_add] using hw, fun i hi => hmoved i (zero_le i) hi⟩

/-- The digit above an odd number of digits is cleared. -/
theorem storeLeadingZero_spec (h : used % 2 = 1 → used < r.length) :
    Returns False (storeLeadingZero used r) fun r' =>
      Writes used (used + 1) r r' ∧ (used % 2 = 1 → digitAt r' used = 0) := by
  refine returns_ite (fun hodd => ?_) fun heven => ⟨Writes.refl, fun hodd => absurd hodd heven⟩
  refine (store_spec (h hodd)).mono ?_
  rintro r' ⟨hw, hzero⟩
  exact ⟨hw, fun _ => by rw [hzero, zero_mod]⟩

/-! ## Carry loops -/

/-- A carry loop before index `i` that started with `r₀`: the digits below `i` and the carry make
`sum`, and none from `i` on was written. -/
structure Carried (r₀ : Digits) (sum : ℤ) (i : ℕ) (carry : ℤ) (r : Digits) : Prop where
  writes : Writes 0 i r₀ r
  sum_eq : (valueOf r i : ℤ) + carry * (digitBase : ℤ) ^ i = sum

/-- Before the first digit nothing has been added. -/
theorem Carried.init : Carried r₀ 0 0 0 r₀ := ⟨Writes.refl, by simp⟩

/-- The low digit of a sum is a digit. -/
theorem lowDigit_lt (v : ℤ) : lowDigit v < digitBase := by
  have h1 := Int.emod_lt_of_pos v (by decide : (0 : ℤ) < digitBase)
  have h2 := Int.emod_nonneg v (by decide : (digitBase : ℤ) ≠ 0)
  unfold lowDigit
  omega

/-- **A sum is its low digit and its carry**, also for a negative sum. -/
theorem lowDigit_add (v : ℤ) : (lowDigit v : ℤ) + v >>> digitBits * digitBase = v := by
  have h := Int.emod_add_mul_ediv v digitBase
  have hnonneg := Int.emod_nonneg v (by decide : (digitBase : ℤ) ≠ 0)
  have hshift : v >>> digitBits = v / digitBase := by
    rw [Int.shiftRight_eq_div_pow]
    rfl
  rw [lowDigit, Int.toNat_of_nonneg hnonneg, hshift]
  linarith

variable {sum carry : ℤ}

section

variable (h : Carried r₀ sum i carry r)
include h

/-- **One step of a carry loop** adds `t` at the place of its index. -/
theorem Carried.step {carry' t : ℤ} {digit : ℕ} (hw : Writes i (i + 1) r r')
    (hdigit : digitAt r' i = digit) (ht : (digit : ℤ) + carry' * digitBase = carry + t) :
    Carried r₀ (sum + t * (digitBase : ℤ) ^ i) (i + 1) carry' r' := by
  refine ⟨h.writes.trans hw (by omega), ?_⟩
  rw [valueOf_succ, hw.valueOf_eq le_rfl, hdigit, ← h.sum_eq]
  push_cast
  linear_combination (digitBase : ℤ) ^ i * ht

/-- One digit of a sum is stored, and the carry goes on. -/
theorem Carried.storeCarry {t : ℤ} (hi : i < r₀.length) :
    Returns False (storeCarry (carry + t) r i) fun s =>
      Carried r₀ (sum + t * (digitBase : ℤ) ^ i) (i + 1) s.1 s.2 := by
  refine (h.writes.returns_store (by omega)).bind ?_
  rintro r' ⟨hw, hdigit⟩
  rw [mod_eq_of_lt (lowDigit_lt _)] at hdigit
  exact h.step hw hdigit (lowDigit_add _)

/-- Operands are read before they are overwritten. -/
theorem Carried.load (x : Operand) (hi : i < (x.get r₀).length) :
    load (x.get r) i = some (digitAt (x.get r₀) i) :=
  h.writes.load_get x (.inr le_rfl) hi

omit h in
/-- The loop that adds the rest of the longer operand to the carry. -/
theorem Carried.carryStep {s : ℤ × Digits} (hlo : lo ≤ hi) (hx : hi ≤ (x.get r₀).length)
    (hr : hi ≤ r₀.length) (h : Carried r₀ (valueOf (x.get r₀) lo + sum) lo s.1 s.2) :
    Returns False ((range' lo (hi - lo)).foldlM (carryStep x) s) fun s =>
      Carried r₀ (valueOf (x.get r₀) hi + sum) hi s.1 s.2 := by
  refine (returns_up (fun i s => Carried r₀ (valueOf (x.get r₀) i + sum) i s.1 s.2) h ?_).mono ?_
  · rintro i s hlo hi' hs
    refine returns_bind_of_eq (hs.load x (by omega)) ((hs.storeCarry (by omega)).mono ?_)
    rintro s' hs'
    rw [valueOf_succ]
    push_cast
    rwa [add_right_comm]
  · rintro s' hs'
    rwa [Nat.add_sub_cancel' hlo] at hs'

/-- Bounds on a sum are bounds on its carry. -/
theorem Carried.carry_mem {m : ℤ} (hr : IsDigits r₀) (hsum : 0 ≤ sum)
    (hlt : sum < m * (digitBase : ℤ) ^ i) : 0 ≤ carry ∧ carry < m := by
  have hv : (valueOf r i : ℤ) < (digitBase : ℤ) ^ i := by
    exact_mod_cast (h.writes.isDigits hr).valueOf_lt
  have hpow : (0 : ℤ) < (digitBase : ℤ) ^ i := by
    have := digitBase_pos
    positivity
  have heq := h.sum_eq
  constructor
  · by_contra hneg
    have : carry * (digitBase : ℤ) ^ i ≤ -1 * (digitBase : ℤ) ^ i :=
      mul_le_mul_of_nonneg_right (by omega) hpow.le
    linarith
  · exact lt_of_mul_lt_mul_right (by linarith) hpow.le

end

variable {y : Operand}

section

variable {otherUsed : ℕ} (hx : IsDigits (x.get r)) (hy : IsDigits (y.get r))
  (hle : otherUsed ≤ used) (hpos : 0 < otherUsed) (hxlen : used ≤ (x.get r).length)
  (hylen : otherUsed ≤ (y.get r).length)
include hx hy hle hpos hxlen hylen

/-- **`_absAdd`** adds, also in place. -/
theorem absAdd_spec (hlen : used < r.length) (hr : IsDigits r) :
    Returns False (absAdd x used y otherUsed r) fun r' => Writes 0 (used + 1) r r' ∧
      valueOf r' (used + 1) = valueOf (x.get r) used + valueOf (y.get r) otherUsed := by
  unfold absAdd
  refine returns_bind_of_eq (if_pos ⟨hle, hpos⟩) ?_
  have hfirst : Returns False ((range' 0 otherUsed).foldlM (addStep x y) (0, r)) fun s =>
      Carried r (valueOf (x.get r) otherUsed + valueOf (y.get r) otherUsed) otherUsed s.1 s.2 := by
    refine (returns_up (fun i s => Carried r (valueOf (x.get r) i + valueOf (y.get r) i) i s.1 s.2)
      Carried.init ?_).mono ?_
    · rintro i s - hi hs
      refine returns_bind_of_eq (hs.load x (by omega)) ?_
      refine returns_bind_of_eq (hs.load y (by omega)) ((hs.storeCarry (by omega)).mono ?_)
      rintro s' hs'
      rw [valueOf_succ, valueOf_succ]
      push_cast
      convert hs' using 1
      ring
    · rintro s hs
      rwa [zero_add] at hs
  refine hfirst.bind fun s hs => (hs.carryStep hle hxlen (by omega)).bind ?_
  rintro ⟨carry, r₁⟩ h1
  refine (h1.writes.returns_store (by omega)).mono ?_
  rintro r₂ ⟨hw, hdigit⟩
  refine ⟨h1.writes.trans hw (by omega), ?_⟩
  -- The sum is below twice the power of its highest place, so the carry is a digit.
  have hX := hx.valueOf_lt (n := used)
  have hY : valueOf (y.get r) otherUsed < digitBase ^ used :=
    hy.valueOf_lt.trans_le (Nat.pow_le_pow_right digitBase_pos hle)
  obtain ⟨hc0, hc2⟩ := h1.carry_mem hr (m := 2) (by positivity) (by zify at hX hY; linarith)
  have hlow : (lowDigit carry : ℤ) = carry := by
    rw [lowDigit, Int.emod_eq_of_lt hc0 (hc2.trans (by decide)), Int.toNat_of_nonneg hc0]
  have hsum := h1.sum_eq
  rw [valueOf_succ, hw.valueOf_eq le_rfl, hdigit, mod_eq_of_lt (lowDigit_lt _)]
  zify
  rwa [hlow]

omit hx hy hle hpos hxlen hylen in
/-- The loop that subtracts two operands of the same length. -/
theorem subLoop_spec (hxlen : n ≤ (x.get r).length) (hylen : n ≤ (y.get r).length)
    (hlen : n ≤ r.length) :
    Returns False ((range' 0 n).foldlM (subStep x y) (0, r)) fun s =>
      Carried r (valueOf (x.get r) n + -valueOf (y.get r) n) n s.1 s.2 := by
  refine (returns_up (fun i s => Carried r (valueOf (x.get r) i + -valueOf (y.get r) i) i s.1 s.2)
    Carried.init ?_).mono ?_
  · rintro i s - hi hs
    refine returns_bind_of_eq (hs.load x (by omega)) ?_
    refine returns_bind_of_eq (hs.load y (by omega)) ((hs.storeCarry (by omega)).mono ?_)
    rintro s' hs'
    rw [valueOf_succ, valueOf_succ]
    push_cast
    convert hs' using 1
    ring
  · rintro s hs
    rwa [zero_add] at hs

omit hy in
/-- **`_absSub`** subtracts a number that is not greater, also in place. -/
theorem absSub_spec (hlen : used ≤ r.length) (hr : IsDigits r)
    (hyx : valueOf (y.get r) otherUsed ≤ valueOf (x.get r) used) :
    Returns False (absSub x used y otherUsed r) fun r' => Writes 0 used r r' ∧
      valueOf r' used = valueOf (x.get r) used - valueOf (y.get r) otherUsed := by
  unfold absSub
  refine returns_bind_of_eq (if_pos ⟨hle, hpos⟩) ?_
  have hfirst := subLoop_spec (x := x) (y := y) (by omega) hylen (by omega)
  refine hfirst.bind fun s hs => (hs.carryStep hle hxlen (by omega)).bind ?_
  rintro ⟨carry, r₁⟩ h1
  refine ⟨h1.writes, ?_⟩
  -- The difference is not negative and below the power, so nothing was borrowed.
  have hX := hx.valueOf_lt (n := used)
  obtain ⟨hc0, hc1⟩ := h1.carry_mem hr (m := 1) (by zify at hyx; linarith)
    (by zify at hX; linarith [Int.natCast_nonneg (valueOf (y.get r) otherUsed)])
  have hsum := h1.sum_eq
  rw [show carry = 0 by omega] at hsum
  zify [hyx]
  linarith

end

/-! ## Shifts -/

section Shift

variable {digit carry bitShift c : ℕ}

/-- A shift within a digit is below 32. -/
theorem mod_digitBits_lt : n % digitBits < digitBits := mod_lt n (by decide)

/-- The two parts of a shifted digit make up the base. -/
theorem pow_mul_pow_digitBits (h : bitShift ≤ digitBits) :
    2 ^ (digitBits - bitShift) * 2 ^ bitShift = digitBase := by
  rw [← pow_add, Nat.sub_add_cancel h]
  rfl

/-- Masking the low bits is a remainder. -/
theorem and_mask : digit &&& (1 <<< n - 1) = digit % 2 ^ n := by
  rw [one_shiftLeft, and_two_pow_sub_one_eq_mod]

/-- A shifted digit, split into the bits that leave it and those that stay. -/
theorem mul_pow_eq_shift (digit : ℕ) (h : bitShift ≤ digitBits) : digit * 2 ^ bitShift
    = digit >>> (digitBits - bitShift) * digitBase
      + (digit &&& (1 <<< (digitBits - bitShift) - 1)) <<< bitShift := by
  rw [and_mask, shiftRight_eq_div_pow, shiftLeft_eq, ← pow_mul_pow_digitBits h]
  conv_lhs => rw [← div_add_mod digit (2 ^ (digitBits - bitShift))]
  ring

/-- Where the bits are disjoint, or is a sum. -/
theorem or_shiftLeft (h : digit < 2 ^ bitShift) :
    digit ||| c <<< bitShift = digit + c <<< bitShift := by
  rw [lor_comm, ← shiftLeft_add_eq_or_of_lt h, add_comm]

/-- The bits that leave a digit are few. -/
theorem shiftRight_lt (h : bitShift ≤ digitBits) (hd : digit < digitBase) :
    digit >>> (digitBits - bitShift) < 2 ^ bitShift := by
  rw [shiftRight_eq_div_pow]
  refine Nat.div_lt_of_lt_mul ?_
  rwa [pow_mul_pow_digitBits h]

/-- The two parts of a digit of the result fit together. -/
theorem add_shiftLeft_lt (h : bitShift ≤ digitBits) (hd : digit < 2 ^ bitShift)
    (hc : c < 2 ^ (digitBits - bitShift)) : digit + c <<< bitShift < digitBase := by
  calc digit + c <<< bitShift < 2 ^ bitShift + c * 2 ^ bitShift := by rw [shiftLeft_eq]; omega
    _ = (c + 1) * 2 ^ bitShift := by ring
    _ ≤ 2 ^ (digitBits - bitShift) * 2 ^ bitShift := mul_le_mul_right _ hc
    _ = digitBase := pow_mul_pow_digitBits h

/-- **`_lsh`** multiplies by a power of two, also in place, as it starts at the top. -/
theorem lsh_spec (hx : IsDigits (x.get r)) (hused : 0 < used) (hxlen : used ≤ (x.get r).length)
    (hlen : used + n / digitBits < r.length) :
    Returns False (lsh x used n r) fun r' =>
      Writes (n / digitBits) (used + n / digitBits + 1) r r' ∧
        valueFrom r' (n / digitBits) (used + 1)
          = valueOf (x.get r) used * 2 ^ (n % digitBits) := by
  have hbits : n % digitBits ≤ digitBits := mod_digitBits_lt.le
  unfold lsh
  refine returns_bind_of_eq (if_pos hused) ?_
  generalize n / digitBits = ds at hlen ⊢
  generalize n % digitBits = bs at hbits ⊢
  -- Above index `i`, the written digits and the carry are the shifted digits of `x`.
  refine (returns_down (fun i s => Writes (i + ds + 1) (used + ds + 1) r s.2 ∧
    (∃ c < 2 ^ (digitBits - bs), s.1 = c <<< bs) ∧ s.1 + digitBase
      * valueFrom s.2 (i + ds + 1) (used - i)
      = valueFrom (x.get r) i (used - i) * 2 ^ bs)
    ⟨Writes.refl, ⟨0, by positivity, by simp⟩, by simp⟩ ?_).bind ?_
  · rintro i ⟨carry, r₁⟩ hi ⟨hw, ⟨c, hclt, hc⟩, hsum⟩
    refine returns_bind_of_eq (hw.load_get x (by omega) (by omega)) ?_
    refine (hw.returns_store (by omega)).bind ?_
    rintro r₂ ⟨hw2, hdigit⟩
    have hd := hx i
    refine ⟨hw.trans hw2 (by omega), ⟨_, by rw [and_mask]; exact mod_lt _ (by positivity), rfl⟩, ?_⟩
    have hhigh := shiftRight_lt hbits hd
    rw [hc, or_shiftLeft hhigh, mod_eq_of_lt (add_shiftLeft_lt hbits hhigh hclt), ← hc] at hdigit
    obtain ⟨m, hm⟩ : ∃ m, used - i = m + 1 := ⟨used - (i + 1), by omega⟩
    rw [show used - (i + 1) = m by omega, show i + 1 + ds + 1 = i + ds + 1 + 1 by omega] at hsum
    rw [hm, valueFrom_succ', valueFrom_succ', hw2.valueFrom_eq le_rfl, hdigit]
    linear_combination digitBase * hsum - mul_pow_eq_shift (digitAt (x.get r) i) hbits
  · rintro ⟨carry, r₁⟩ ⟨hw, ⟨c, hclt, hc⟩, hsum⟩
    refine (hw.returns_store (by omega)).mono ?_
    rintro r₂ ⟨hw2, hdigit⟩
    refine ⟨hw.trans hw2 (by omega), ?_⟩
    have hcarry : carry < digitBase := by
      have := add_shiftLeft_lt hbits (by positivity : 0 < 2 ^ bs) hclt
      rwa [zero_add, ← hc] at this
    rw [valueFrom_succ', hw2.valueFrom_eq le_rfl, hdigit, mod_eq_of_lt hcarry]
    simpa only [zero_add, Nat.sub_zero, valueFrom_zero] using hsum

/-- The step of a right shift: a digit is put on top of those that were shifted. -/
theorem add_mul_pow_div (sum : ℕ) (h : bitShift ≤ digitBits) :
    (sum + digit * digitBase ^ (i + 1)) / 2 ^ bitShift = sum / 2 ^ bitShift
      + ((digit &&& (1 <<< bitShift - 1)) <<< (digitBits - bitShift)
        + digit >>> bitShift * digitBase) * digitBase ^ i := by
  have hsplit := mul_pow_eq_shift digit (sub_le digitBits bitShift)
  rw [Nat.sub_sub_self h] at hsplit
  have hbase : sum + digit * digitBase ^ (i + 1)
      = sum + 2 ^ bitShift * (digit * 2 ^ (digitBits - bitShift) * digitBase ^ i) := by
    linear_combination (digit * digitBase ^ i) * (pow_mul_pow_digitBits h).symm
  rw [hbase, add_mul_div_left _ _ (by positivity), hsplit]
  ring

/-- A power of two is a power of the base and a shift within a digit. -/
theorem two_pow_eq (n : ℕ) : 2 ^ n = digitBase ^ (n / digitBits) * 2 ^ (n % digitBits) := by
  conv_lhs => rw [← div_add_mod n digitBits, pow_add, pow_mul]
  rfl

/-- **`_rsh`** divides by a power of two, rounding down, also in place, as it starts
at the bottom. -/
theorem rsh_spec (hx : IsDigits (x.get r)) (hused : n / digitBits < used)
    (hxlen : used ≤ (x.get r).length) (hlen : used - n / digitBits ≤ r.length) :
    Returns False (rsh x used n r) fun r' => Writes 0 (used - n / digitBits) r r' ∧
      valueOf r' (used - n / digitBits) = valueOf (x.get r) used / 2 ^ n := by
  have hbits : n % digitBits ≤ digitBits := mod_digitBits_lt.le
  have hvalue : valueOf (x.get r) used / 2 ^ n
      = valueFrom (x.get r) (n / digitBits) (used - n / digitBits)
        / 2 ^ (n % digitBits) := by
    rw [two_pow_eq n, ← Nat.div_div_eq_div_mul, valueOf]
    conv_lhs => rw [← Nat.add_sub_cancel' hused.le]
    rw [value_div (fun i _ => hx i) digitBase_pos]
  rw [hvalue]
  unfold rsh
  generalize n / digitBits = ds at hused hlen ⊢
  generalize n % digitBits = bs at hbits ⊢
  refine returns_bind_of_eq (if_pos (by omega)) ?_
  refine returns_bind_of_eq (load_eq (by omega)) ?_
  have hcarry : ∀ {d : ℕ}, d < digitBase → d >>> bs < 2 ^ (digitBits - bs) := fun hd => by
    have := shiftRight_lt (sub_le digitBits bs) hd
    rwa [Nat.sub_sub_self hbits] at this
  -- The written digits and the carry are the shifted digits of `x` up to the last one read.
  refine (returns_up (fun i s => Writes 0 i r s.2 ∧ s.1 < 2 ^ (digitBits - bs) ∧
    valueOf s.2 i + s.1 * digitBase ^ i
      = valueFrom (x.get r) ds (i + 1) / 2 ^ bs)
    ⟨Writes.refl, hcarry (hx ds), by simp [shiftRight_eq_div_pow]⟩ ?_).bind ?_
  · rintro i ⟨carry, r₁⟩ - hi ⟨hw, hclt, hsum⟩
    refine returns_bind_of_eq (hw.load_get x (by omega) (by omega)) ?_
    rw [show i + ds + 1 = ds + (i + 1) by omega]
    refine (hw.returns_store (by omega)).bind ?_
    rintro r₂ ⟨hw2, hdigit⟩
    refine ⟨hw.trans hw2 (by omega), hcarry (hx _), ?_⟩
    have hlow : digitAt (x.get r) (ds + (i + 1)) &&& (1 <<< bs - 1)
        < 2 ^ (digitBits - (digitBits - bs)) := by
      rw [and_mask, Nat.sub_sub_self hbits]
      exact mod_lt _ (by positivity)
    rw [lor_comm, or_shiftLeft hclt,
      mod_eq_of_lt (add_shiftLeft_lt (sub_le _ _) hclt hlow)] at hdigit
    rw [valueFrom, value_succ, add_mul_pow_div _ hbits, ← hsum, valueOf_succ,
      hw2.valueOf_eq le_rfl, hdigit]
    ring
  · rintro ⟨carry, r₁⟩ ⟨hw, hclt, hsum⟩
    rw [zero_add] at hw hsum
    refine (hw.returns_store (by omega)).mono ?_
    rintro r₂ ⟨hw2, hdigit⟩
    have hlt : carry < digitBase := hclt.trans_le (by
      rw [← pow_mul_pow_digitBits hbits]
      exact Nat.le_mul_of_pos_right _ (by positivity))
    refine ⟨hw.trans hw2 (by omega), ?_⟩
    obtain ⟨last, hlast⟩ : ∃ last, used - ds = last + 1 := ⟨used - ds - 1, by omega⟩
    rw [hlast, Nat.add_sub_cancel] at hsum hw2 hdigit
    rw [hlast, valueOf_succ, hw2.valueOf_eq le_rfl, hdigit, mod_eq_of_lt hlt, hsum]

end Shift

/-! ## Shifts with a count of digits -/

/-- Zeros at the bottom are a factor. -/
theorem valueOf_of_zeros_below (h : ∀ i < n, digitAt r i = 0) :
    valueOf r (n + k) = valueFrom r n k * digitBase ^ n := by
  rw [valueOf_add, show valueOf r n = 0 from value_eq_zero h, zero_add, mul_comm]

/-- **`_dlShiftDigits`** multiplies by a power of the base. -/
theorem dlShiftDigits_spec (hused : 0 < used) (hx : IsDigits (x.get r))
    (hxlen : used ≤ (x.get r).length) (hlen : used + n + (used + n) % 2 ≤ r.length)
    (hpad : used % 2 = 1 → digitAt (x.get r) used = 0) :
    Returns False (dlShiftDigits x used n r) fun s => s.1 = used + n ∧
      Writes 0 (used + n + 1) r s.2 ∧
        valueOf s.2 (used + n) = valueOf (x.get r) used * digitBase ^ n ∧
        ((used + n) % 2 = 1 → digitAt s.2 (used + n) = 0) := by
  unfold dlShiftDigits
  rw [if_neg hused.ne']
  split
  · -- Nothing to do in place.
    exact ⟨rfl, Writes.refl, by rw [pow_zero, mul_one]; rfl, hpad⟩
  refine returns_bind_of_eq (if_pos (by rwa [and_one_is_mod])) ?_
  refine (moveUp_spec hx hxlen (by omega)).bind ?_
  rintro r₁ ⟨hw1, hmoved⟩
  refine (clearDigits_spec (by rw [hw1.length_eq]; omega)).bind ?_
  rintro r₂ ⟨hw2, hclear⟩
  refine (storeLeadingZero_spec (by rw [hw2.length_eq, hw1.length_eq]; omega)).bind ?_
  rintro r₃ ⟨hw3, hzero⟩
  have hw : Writes 0 (used + n) r r₂ := hw1.trans hw2 (by omega)
  refine ⟨rfl, hw.trans hw3 (by omega), ?_, hzero⟩
  have hlow : ∀ i < n, digitAt r₃ i = 0 := fun i hi => by
    rw [hw3.digitAt_eq i (.inl (by omega)), hclear i hi]
  have hhigh : valueFrom r₃ n used = valueOf (x.get r) used :=
    value_congr fun i hi => by
      rw [hw3.digitAt_eq _ (.inl (by omega)), hw2.digitAt_eq _ (.inr (by omega)), add_comm,
        hmoved i hi]
  rw [add_comm used n, valueOf_of_zeros_below hlow, hhigh]

/-- The end of a shift: the result has `used` digits, or one less if the highest is zero. -/
theorem clampResult_spec (hused : 0 < used) (hlen : used + used % 2 ≤ r.length) :
    Returns False (clampResult used r) fun s => Writes used (used + 1) r s.2 ∧
      valueOf s.2 s.1 = valueOf r used ∧ (s.1 % 2 = 1 → digitAt s.2 s.1 = 0) ∧
        (s.1 + 1 = used ∨ s.1 = used ∧ digitBase ^ (used - 1) ≤ valueOf r used) := by
  obtain ⟨m, rfl⟩ := exists_eq_succ_of_ne_zero hused.ne'
  unfold clampResult
  refine returns_bind_of_eq (load_eq (by omega)) ?_
  rw [succ_sub_one]
  refine returns_ite (fun hzero => ?_) fun hne => ?_
  · refine ⟨Writes.refl, ?_, fun _ => hzero, .inl rfl⟩
    rw [valueOf_succ, hzero, zero_mul, add_zero]
  · refine (storeLeadingZero_spec (by omega)).bind ?_
    rintro r' ⟨hw, hpad⟩
    exact ⟨hw, hw.valueOf_eq le_rfl, hpad, .inr ⟨rfl, pow_le_value hne⟩⟩

/-- **`_lShiftDigits`** multiplies by a power of two. -/
theorem lShiftDigits_spec (hused : 0 < used) (hx : IsDigits (x.get r))
    (hxlen : used ≤ (x.get r).length)
    (hlen : used + n / digitBits + (used + n / digitBits) % 2 ≤ r.length)
    (hlen' : n % digitBits ≠ 0 →
      used + n / digitBits + 3 - (used + n / digitBits + 1) % 2 ≤ r.length)
    (hpad : used % 2 = 1 → digitAt (x.get r) used = 0) :
    Returns False (lShiftDigits x used n r) fun s => Writes 0 (used + n / digitBits + 2) r s.2 ∧
      valueOf s.2 s.1 = valueOf (x.get r) used * 2 ^ n ∧ (s.1 % 2 = 1 → digitAt s.2 s.1 = 0) ∧
        (s.1 = used + n / digitBits ∨ s.1 = used + n / digitBits + 1 ∧
          digitBase ^ (used + n / digitBits) ≤ valueOf (x.get r) used * 2 ^ n) := by
  unfold lShiftDigits
  refine returns_ite (fun hbits => ?_) fun hbits => ?_
  · refine (dlShiftDigits_spec hused hx hxlen hlen hpad).mono ?_
    rintro s ⟨hs, hw, hvalue, hzero⟩
    rw [hs]
    refine ⟨hw.mono (by omega), ?_, hzero, .inl rfl⟩
    rw [hvalue, two_pow_eq n, hbits, pow_zero, mul_one]
  · refine returns_bind_of_eq (if_pos (by rw [and_one_is_mod]; omega)) ?_
    refine (lsh_spec hx hused hxlen (by omega)).bind ?_
    rintro r₁ ⟨hw1, hvalue⟩
    refine (clearDigits_spec (by rw [hw1.length_eq]; omega)).bind ?_
    rintro r₂ ⟨hw2, hclear⟩
    have hlength : r₂.length = r.length := hw2.length_eq.trans hw1.length_eq
    have hvalue2 : valueOf r₂ (used + n / digitBits + 1) = valueOf (x.get r) used * 2 ^ n := by
      rw [show used + n / digitBits + 1 = n / digitBits + (used + 1) by omega,
        valueOf_of_zeros_below hclear, hw2.valueFrom_eq le_rfl, hvalue, two_pow_eq n]
      ring
    refine (clampResult_spec (succ_pos _) (by rw [hlength]; omega)).mono ?_
    rintro s ⟨hw, hs, hzero, hcount⟩
    have hw12 : Writes 0 (used + n / digitBits + 1) r r₂ :=
      hw1.trans hw2 ⟨⟨zero_le _, le_rfl⟩, by omega⟩
    refine ⟨hw12.trans hw (by omega), hs.trans hvalue2, hzero, ?_⟩
    rw [hvalue2] at hcount
    rcases hcount with h | ⟨h1, h2⟩
    · exact .inl (by omega)
    · exact .inr ⟨h1, h2⟩

/-! ## Comparison -/

/-- The sign of `c` is the result of comparing `a` with `b`. -/
def Compares {α : Type*} [LT α] (c : ℤ) (a b : α) : Prop := (c < 0 ↔ a < b) ∧ (0 < c ↔ b < a)

section

variable {x y : Digits} (hx : IsDigits x) (hy : IsDigits y) (hxlen : n ≤ x.length)
  (hylen : n ≤ y.length)
include hx hy hxlen hylen

omit hy hxlen hylen in
/-- The highest digit decides a comparison. -/
theorem valueOf_lt_of_digit_lt (h : digitAt x n < digitAt y n) :
    valueOf x (n + 1) < valueOf y (n + 1) :=
  value_lt_value (fun i _ => hx i) (lt_succ_self n) h fun i h1 h2 => absurd h2 (by omega)

/-- The loop of `_compareDigits` compares two numbers, from the highest digit down. -/
theorem compareDigitsBelow_spec :
    Returns False (compareDigitsBelow x y n) fun c => Compares c (valueOf x n) (valueOf y n) := by
  induction n with
  | zero => simp [compareDigitsBelow, Compares]
  | succ n ih =>
    unfold compareDigitsBelow
    refine returns_bind_of_eq (load_eq (by omega)) ?_
    refine returns_bind_of_eq (load_eq (by omega)) ?_
    refine returns_ite (fun hne => ?_) fun heq => (ih (by omega) (by omega)).mono ?_
    · rcases lt_trichotomy (digitAt x n) (digitAt y n) with hlt | heq | hlt
      · have hv := valueOf_lt_of_digit_lt hx hlt
        show Compares _ _ _
        unfold Compares
        omega
      · exact absurd (by omega) hne
      · have hv := valueOf_lt_of_digit_lt hy hlt
        show Compares _ _ _
        unfold Compares
        omega
    · intro c hc
      have hd : digitAt x n = digitAt y n := by omega
      unfold Compares at hc ⊢
      rw [valueOf_succ, valueOf_succ, hd]
      omega

/-- **`_compareDigits`** of two numbers with the same count of digits. -/
theorem compareDigits_spec :
    Returns False (compareDigits x n y n) fun c => Compares c (valueOf x n) (valueOf y n) := by
  rw [compareDigits, if_pos (sub_self _)]
  exact compareDigitsBelow_spec hx hy hxlen hylen

end

/-! ## Multiplication -/

/-- A value below 2^63 does not overflow. -/
theorem int64_eq (h : v < 2 ^ 63) : int64 v = some v := if_pos h

/-- The low half of a digit. -/
theorem and_halfDigitMask (x : ℕ) : x &&& halfDigitMask = x % 2 ^ 16 := and_mask

/-- The high half of a digit. -/
theorem shiftRight_halfDigitBits (x : ℕ) : x >>> halfDigitBits = x / 2 ^ 16 :=
  shiftRight_eq_div_pow x 16

/-- The low digit of a product. -/
theorem and_digitMask (x : ℕ) : x &&& digitMask = x % digitBase := and_mask

/-- The high digit of a product. -/
theorem shiftRight_digitBits (x : ℕ) : x >>> digitBits = x / digitBase :=
  shiftRight_eq_div_pow x 32

section HalfDigits

variable {x m rest ph pl : ℕ}
  (hph : ph = (x >>> halfDigitBits) * (m &&& halfDigitMask)
    + (m >>> halfDigitBits) * (x &&& halfDigitMask))
  (hpl : pl = (x &&& halfDigitMask) * (m &&& halfDigitMask)
    + (ph &&& halfDigitMask) <<< halfDigitBits + rest)
include hph hpl

/-- **The half-digit product**: the low digit and the carry make up the product and
what is added. -/
theorem halfDigit_mul : (pl &&& digitMask) + (pl >>> digitBits + ph >>> halfDigitBits
        + (x >>> halfDigitBits) * (m >>> halfDigitBits)) * digitBase = x * m + rest := by
  rw [shiftLeft_eq, show halfDigitBits = 16 from rfl] at hpl
  simp only [and_halfDigitMask, shiftRight_halfDigitBits] at hph hpl
  rw [and_digitMask, shiftRight_digitBits]
  simp only [shiftRight_halfDigitBits]
  have hx := div_add_mod x (2 ^ 16)
  have hm := div_add_mod m (2 ^ 16)
  have hph' := div_add_mod ph (2 ^ 16)
  have hpl' := div_add_mod pl digitBase
  generalize x / 2 ^ 16 = xh, x % 2 ^ 16 = xl, m / 2 ^ 16 = mh, m % 2 ^ 16 = ml,
    ph / 2 ^ 16 = phh, ph % 2 ^ 16 = phl, pl / digitBase = plh, pl % digitBase = pll at *
  rw [digitBase_eq] at hpl' ⊢
  rw [← hx, ← hm]
  linear_combination hpl' + hpl + 2 ^ 16 * hph' + 2 ^ 16 * hph

/-- No intermediate result of the half-digit product needs more than 63 bits. -/
theorem halfDigit_mul_lt (hx : x < 2 ^ 33) (hm : m < digitBase) (hrest : rest < 2 ^ 40) :
    ph < 2 ^ 63 ∧ pl < 2 ^ 63 := by
  rw [show halfDigitBits = 16 from rfl] at hpl
  simp only [and_halfDigitMask, shiftRight_halfDigitBits] at hph hpl
  rw [digitBase_eq] at hm
  have hxh : x / 2 ^ 16 ≤ 2 ^ 17 := by omega
  have hmh : m / 2 ^ 16 ≤ 2 ^ 16 := by omega
  have hxl : x % 2 ^ 16 ≤ 2 ^ 16 := (mod_lt _ (by norm_num)).le
  have hml : m % 2 ^ 16 ≤ 2 ^ 16 := (mod_lt _ (by norm_num)).le
  have h1 := mul_le_mul hxh hml
  have h2 := mul_le_mul hmh hxl
  have h3 := mul_le_mul hxl hml
  omega

end HalfDigits

/-- A product with two carries still has two digits. -/
theorem mul_add_add_lt {b x m a c : ℕ} (hx : x < b) (hm : m < b) (ha : a < b) (hc : c < b) :
    x * m + a + c < b * b := by
  nlinarith

/-- One step of `_mulAdd`: product and old digit are added at their place, and the carry stays a
digit. -/
theorem mulAddStep_spec {m : Digits} {x : ℕ} {s : ℕ × Digits} (hx : x < digitBase) (hm : IsDigits m)
    (hr : IsDigits r₀) (hmlen : i + k < m.length) (hlen : j + k < r₀.length)
    (hcarry : s.1 < digitBase) (h : Carried r₀ sum (j + k) s.1 s.2) :
    Returns False (mulAddStep x m i j s k) fun s' => s'.1 < digitBase ∧
      Carried r₀ (sum + (x * digitAt m (i + k) + digitAt r₀ (j + k) : ℕ)
        * (digitBase : ℤ) ^ (j + k)) (j + k + 1) s'.1 s'.2 := by
  have hacc : load s.2 (j + k) = some (digitAt r₀ (j + k)) :=
    h.load .result hlen
  have hM := hm (i + k)
  have hA := hr (j + k)
  unfold mulAddStep
  refine returns_bind_of_eq (load_eq hmlen) ?_
  generalize hph : (x >>> halfDigitBits) * (digitAt m (i + k) &&& halfDigitMask)
    + (digitAt m (i + k) >>> halfDigitBits) * (x &&& halfDigitMask) = ph
  generalize hpl : (x &&& halfDigitMask) * (digitAt m (i + k) &&& halfDigitMask)
      + (ph &&& halfDigitMask) <<< halfDigitBits + (digitAt r₀ (j + k) + s.1) = pl
  have hmul := halfDigit_mul hph.symm hpl.symm
  have hrest : digitAt r₀ (j + k) + s.1 < 2 ^ 40 := by
    rw [digitBase_eq] at hA hcarry
    omega
  obtain ⟨hphlt, hpllt⟩ := halfDigit_mul_lt hph.symm hpl.symm (hx.trans (by decide)) hM hrest
  generalize hc : pl >>> digitBits + ph >>> halfDigitBits
    + (x >>> halfDigitBits) * (digitAt m (i + k) >>> halfDigitBits) = carry' at hmul
  have hcarry' : carry' < digitBase := by
    have hprod := mul_add_add_lt hx hM hA hcarry
    exact Nat.lt_of_mul_lt_mul_right (by omega : carry' * digitBase < digitBase * digitBase)
  dsimp only
  rw [hph]
  refine returns_bind_of_eq (int64_eq hphlt) ?_
  refine returns_bind_of_eq hacc ?_
  rw [add_assoc, hpl]
  refine returns_bind_of_eq (int64_eq hpllt) ?_
  rw [hc]
  refine returns_bind_of_eq (int64_eq (hcarry'.trans (by decide))) ?_
  refine (h.writes.returns_store (by omega)).bind ?_
  rintro r' ⟨hw, hdigit⟩
  refine ⟨hcarry', h.step hw hdigit ?_⟩
  rw [and_digitMask, mod_mod, ← and_digitMask]
  push_cast
  linarith

section Propagate

variable {l carry add count : ℕ}

/-- When the carry is zero the addition is complete. -/
theorem Carried.finish (hj : j ≤ l) (h : Carried r₀ (valueOf r₀ j + add : ℕ) j (0 : ℕ) r) :
    Writes 0 l r₀ r ∧ valueOf r l = valueOf r₀ l + add := by
  refine ⟨h.writes.mono (by omega), ?_⟩
  have hsum : valueOf r j = valueOf r₀ j + add := by
    have := h.sum_eq
    push_cast at this
    linarith
  exact h.writes.valueOf_add hj hsum

/-- As long as there is a carry, the result has more digits. -/
theorem Carried.lt_of_carry_ne_zero (hroom : valueOf r₀ l + add < digitBase ^ l) (hj : j ≤ l)
    (h : Carried r₀ (valueOf r₀ j + add : ℕ) j carry r) (hne : carry ≠ 0) : j < l := by
  refine lt_of_le_of_ne hj ?_
  rintro rfl
  have hsum : valueOf r j + carry * digitBase ^ j = valueOf r₀ j + add := by exact_mod_cast h.sum_eq
  have hle : 1 * digitBase ^ j ≤ carry * digitBase ^ j :=
    mul_le_mul_right _ (pos_of_ne_zero hne)
  omega

/-- **The end of `_mulAdd`** adds the carry from index `j` on, within the `l` digits
that have room. -/
theorem propagateCarry_spec (hr : IsDigits r₀) (hlen : l ≤ r₀.length)
    (hroom : valueOf r₀ l + add < digitBase ^ l) (hj : j ≤ l) (hcount : l ≤ j + count)
    (hcarry : carry < digitBase) (h : Carried r₀ (valueOf r₀ j + add : ℕ) j carry r) :
    Returns False (propagateCarry count j carry r) fun r' => Writes 0 l r₀ r' ∧
      valueOf r' l = valueOf r₀ l + add := by
  induction count generalizing j carry r with
  | zero =>
    refine returns_ite (fun hzero => ?_) fun hne => ?_
    · subst hzero
      exact h.finish hj
    · exact absurd (h.lt_of_carry_ne_zero hroom hj hne) (by omega)
  | succ count ih =>
    refine returns_ite (fun hzero => ?_) fun hne => ?_
    · subst hzero
      exact h.finish hj
    have hjl := h.lt_of_carry_ne_zero hroom hj hne
    have hdigit := hr j
    have hload : load r j = some (digitAt r₀ j) := h.load .result (hjl.trans_le hlen)
    have hsum : digitAt r₀ j + carry < 2 * digitBase := by omega
    refine returns_bind_of_eq hload ?_
    refine returns_bind_of_eq (int64_eq (hsum.trans (by decide))) ?_
    refine (h.writes.returns_store (by omega)).bind ?_
    rintro r₁ ⟨hw, hstored⟩
    rw [and_digitMask, mod_mod] at hstored
    rw [shiftRight_digitBits]
    have hcarry' : (digitAt r₀ j + carry) / digitBase < digitBase :=
      Nat.div_lt_of_lt_mul (hsum.trans (by decide))
    have hparts : (((digitAt r₀ j + carry) % digitBase : ℕ) : ℤ)
        + ((digitAt r₀ j + carry) / digitBase : ℕ) * digitBase = carry + digitAt r₀ j := by
      have := mod_add_div (digitAt r₀ j + carry) digitBase
      zify at this ⊢
      linarith
    have hnext := h.step hw hstored hparts
    refine ih hjl (by omega) hcarry' ?_
    rw [valueOf_succ]
    convert hnext using 1
    push_cast
    ring

end Propagate

/-- **`_mulAdd`** adds a multiple within the `l` digits of the accumulator that have room for the
sum. -/
theorem mulAdd_spec {x m : Digits} {xIndex l : ℕ} (hx : IsDigits x) (hm : IsDigits m)
    (hr : IsDigits r) (hxlen : xIndex < x.length) (hmlen : i + n ≤ m.length) (hl : j + n ≤ l)
    (hlen : l ≤ r.length)
    (hroom : valueOf r l + digitAt x xIndex * valueFrom m i n
      * digitBase ^ j < digitBase ^ l) :
    Returns False (mulAdd x xIndex m i r j n) fun r' => Writes 0 l r r' ∧ valueOf r' l = valueOf r l
      + digitAt x xIndex * valueFrom m i n * digitBase ^ j := by
  unfold mulAdd
  refine returns_bind_of_eq (load_eq hxlen) ?_
  have hX := hx xIndex
  generalize digitAt x xIndex = d at hroom hX ⊢
  refine returns_ite (fun hzero => ?_) fun _ => ?_
  · subst hzero
    exact ⟨Writes.refl, by simp⟩
  refine (returns_up (fun k s => s.1 < digitBase ∧ Carried r
    (valueOf r (j + k) + d * valueFrom m i k * digitBase ^ j : ℕ)
    (j + k) s.1 s.2) ?_ ?_).bind ?_
  · exact ⟨digitBase_pos, Writes.refl, by simp⟩
  · rintro k s - hk ⟨hcarry, hs⟩
    refine (mulAddStep_spec hX hm hr (by omega) (by omega) hcarry hs).mono ?_
    rintro s' ⟨hcarry', hs'⟩
    refine ⟨hcarry', ?_⟩
    rw [valueFrom, value_succ, ← add_assoc, valueOf_succ]
    convert hs' using 1
    push_cast
    ring
  · rintro ⟨carry, acc⟩ ⟨hcarry, hs⟩
    rw [zero_add] at hs
    exact propagateCarry_spec hr hlen hroom hl (by omega) hcarry hs

end DartVm.BigInt
