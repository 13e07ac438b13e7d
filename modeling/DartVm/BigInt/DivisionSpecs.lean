import DartVm.BigInt.Division
import DartVm.Library.LongDivision

/-! # What the division loop computes

The value of the result array is the register of a long division; all that the loop does to the
array is adding and subtracting multiples of the negated divisor.

* `Mode.estimateQuotientDigit_spec`: the estimate is not too small.
* `Mode.correct_spec`: the correction brings it down to the digit.
* `Mode.divideLoop_spec`: the loop finds all missing digits of the quotient. -/

namespace DartVm.BigInt

open Postcondition CountedLoop Positional LongDivision Mode Nat

variable {mode : Mode} {args ny r r₀ tmp : Digits} {i j k n y x u q tmpLen resultLen : ℕ}
  {s : DivArrays} {d : Digits}

/-- The digits from an index on, taken out of the value of the array. -/
theorem value_eq_mod_div {a c : ℕ} (hd : IsDigits d) (hu : a + c ≤ u) :
    value digitBase (fun i => digitAt d (a + i)) c =
      valueOf d u % digitBase ^ (a + c) / digitBase ^ a := by
  rw [valueOf, value_mod hu fun i _ => hd i, value_div (fun i _ => hd i) digitBase_pos]

/-- A wide digit, cut out of the number. -/
theorem wideAt_eq_div_mod (hd : IsDigits d) (hu : i + mode.step ≤ u) :
    wideAt mode d i = valueOf d u / digitBase ^ i % digitBase ^ mode.step := by
  rw [wideAt, value_eq_mod_div hd hu, pow_add, mod_mul_right_div_self]

/-- The leading digits of the divisor, as the estimates use them. -/
def topOf (mode : Mode) (args : Digits) : ℕ :=
  match mode with
  | .digit => digitAt args divisorTopDigit
  | .digitPair => wideAt .digitPair args divisorLowTopDigit

/-- **The inputs of the division loop**: `args` has the leading digits of the normalized divisor `y`
of `n` digits, and `ny` is its negation. -/
structure IsDivisor (mode : Mode) (y n : ℕ) (args ny : Digits) : Prop where
  args_length : args.length = 4
  args_isDigits : IsDigits args
  ny_isDigits : IsDigits ny
  ny_length : n ≤ ny.length
  ny_value : valueOf ny n = digitBase ^ n - y
  even : n % 2 = 0
  pos : 0 < n
  top_le : topOf mode args * digitBase ^ (n - mode.step) ≤ y
  lt_top : y < (topOf mode args + 1) * digitBase ^ (n - mode.step)
  normalized : digitBase ^ mode.step ≤ 2 * topOf mode args

namespace IsDivisor

variable (h : IsDivisor mode y n args ny)

include h

/-- A divisor has at least one wide digit. -/
theorem step_le : mode.step ≤ n := by
  have h1 := h.even
  have h2 := h.pos
  cases mode <;> simp only [Mode.step] <;> omega

/-- The digits of a divisor fill whole wide digits. -/
theorem roundUp_eq : mode.roundUp n = n := by
  have := h.even
  cases mode
  · exact roundUp_digit
  · rw [roundUp_digitPair, this, Nat.add_zero]

/-- The top wide digit of a divisor is not small. -/
theorem top_pos : 1 < topOf mode args := by
  have := h.normalized
  cases mode <;> simp only [Mode.step, digitBase_eq] at this <;> omega

/-- A divisor is positive. -/
theorem pos_y : 0 < y :=
  (Nat.mul_pos (zero_lt_of_lt h.top_pos) (Nat.pow_pos digitBase_pos)).trans_le h.top_le

/-- The top wide digit is below its base. -/
theorem top_lt : topOf mode args < digitBase ^ mode.step := by
  cases mode
  · exact h.args_isDigits _
  · exact wideAt_lt h.args_isDigits

/-- A divisor has `n` digits. -/
theorem lt_pow : y < digitBase ^ n :=
  calc y < (topOf mode args + 1) * digitBase ^ (n - mode.step) := h.lt_top
    _ ≤ digitBase ^ mode.step * digitBase ^ (n - mode.step) := Nat.mul_le_mul_right _ h.top_lt
    _ = digitBase ^ n := by rw [← pow_add, Nat.add_sub_cancel' h.step_le]

/-- The loop writes the estimates only, so that the leading digits stay. -/
theorem of_writes {args' : Digits} (hw : Writes 2 4 args args') : IsDivisor mode y n args' ny := by
  have htop : topOf mode args' = topOf mode args := by
    cases mode
    · exact hw.digitAt_eq _ (.inl (by decide))
    · rw [topOf, topOf, wideAt_digitPair, wideAt_digitPair, hw.digitAt_eq _ (.inl (by decide)),
        hw.digitAt_eq _ (.inl (by decide))]
  exact ⟨hw.length_eq.trans h.args_length, hw.isDigits h.args_isDigits, h.ny_isDigits, h.ny_length,
    h.ny_value, h.even, h.pos, htop ▸ h.top_le, htop ▸ h.lt_top, htop ▸ h.normalized⟩

end IsDivisor

/-! ## Estimates -/

section

variable (h : IsDivisor mode y n args ny) (hr : IsDigits r)
  (hdiv : Divided digitBase n y x (j + mode.step) (valueOf r u)) (hu : j + mode.step + n ≤ u)
include h hr hdiv hu

omit hdiv in
/-- The next digits times the leading part of the divisor are at most the leading part of the
remainder. -/
theorem IsDivisor.nextDigits_mul_top_le :
    nextDigits digitBase n y j mode.step (valueOf r u) * topOf mode args
      ≤ wideAt mode r (j + (n - mode.step)) + wideAt mode r (j + n) * digitBase ^ mode.step := by
  have hstep := h.step_le
  refine (nextDigits_mul_le digitBase_pos h.top_le).trans_eq ?_
  rw [show j + mode.step + n = j + (n - mode.step) + (mode.step + mode.step) by omega,
    ← value_eq_mod_div hr (by omega), value_add, Nat.mul_comm (digitBase ^ mode.step)]
  congr 2
  refine value_congr fun i _ => ?_
  rw [show j + (n - mode.step) + (mode.step + i) = j + n + i by omega]

/-- The leading digits of the remainder are not above those of the divisor. -/
theorem IsDivisor.wideAt_le_top : wideAt mode r (j + n) ≤ topOf mode args := by
  have hle := hdiv.top_le (Nat.sub_add_cancel h.step_le).symm h.lt_top
  rw [show j + mode.step + n = j + n + mode.step by omega, ← value_eq_mod_div hr (by omega)] at hle
  exact hle

omit h hr hdiv hu in
/-- **The estimate is not too low** for single digits. -/
theorem estimateQuotientDigit_spec (h : IsDivisor .digit y n args ny) (hr : IsDigits r)
    (hdiv : Divided digitBase n y x (j + 1) (valueOf r u)) (hu : j + 1 + n ≤ u)
    (hlen : u ≤ r.length) (hfour : 4 ≤ r.length) :
    Returns False (estimateQuotientDigit args r (j + n)) fun args' => Writes 2 4 args args' ∧
      nextDigits digitBase n y j 1 (valueOf r u) ≤ digitAt args' 2 := by
  have hq : nextDigits digitBase n y j 1 (valueOf r u) ≤ digitMask := by
    have := hdiv.nextDigits_lt
    exact le_sub_one_of_lt this
  have hmul := h.nextDigits_mul_top_le hr hu
  have hwide := h.wideAt_le_top hr hdiv hu
  have htop := h.top_pos
  have hargs := h.args_length
  have hpos := h.pos
  simp only [wideAt_digit, topOf, Mode.step, pow_one] at hmul hwide htop
  generalize nextDigits digitBase n y j 1 (valueOf r u) = q at hq hmul ⊢
  have hstore : ∀ {v : ℕ}, q ≤ v → v ≤ digitMask → Returns False (store args quotientDigit v)
      fun args' => Writes 2 4 args args' ∧ q ≤ digitAt args' 2 := by
    intro v hqv hv
    refine (store_spec (by rw [hargs]; decide)).mono ?_
    rintro args' ⟨hw, hdigit⟩
    refine ⟨hw.mono (by decide), ?_⟩
    rw [show (2 : ℕ) = quotientDigit from rfl, hdigit, mod_eq_of_lt (hv.trans_lt (by decide))]
    exact hqv
  unfold estimateQuotientDigit
  refine returns_bind_of_eq (if_pos hfour) ?_
  refine returns_bind_of_eq (load_eq (by omega)) ?_
  refine returns_bind_of_eq (load_eq (by rw [hargs]; decide)) ?_
  refine returns_ite (fun _ => hstore hq le_rfl) fun hne => ?_
  refine returns_bind_of_eq (load_eq (by omega)) ?_
  have hd1 := hr (j + n)
  have hd0 := hr (j + n - 1)
  rw [show j + (n - 1) = j + n - 1 by omega] at hmul
  generalize digitAt r (j + n) = d₁ at *
  generalize digitAt r (j + n - 1) = d₀ at *
  generalize digitAt args divisorTopDigit = top at *
  -- One bit less of the dividend and of the divisor: the quotient can only become larger.
  have hor : d₁ <<< (digitBits - 1) ||| d₀ >>> 1 = (d₀ + d₁ * digitBase) / 2 := by
    have hlow : d₀ >>> 1 < 2 ^ (digitBits - 1) := Nat.div_lt_of_lt_mul hd0
    rw [← shiftLeft_add_eq_or_of_lt hlow, digitBase_eq, show digitBits - 1 = 31 from rfl]
    omega
  rw [hor]
  have hsmall : (d₀ + d₁ * digitBase) / 2 < 2 ^ 63 := by
    rw [digitBase_eq] at *
    omega
  refine returns_bind_of_eq (int64_eq hsmall) ?_
  have hhalf : top >>> 1 = top / 2 := shiftRight_eq_div_pow top 1
  refine returns_bind_of_eq (if_pos (by omega)) ?_
  have hle : q ≤ (d₀ + d₁ * digitBase) / 2 / (top >>> 1) := by
    rw [hhalf, Nat.le_div_iff_mul_le (by omega), Nat.le_div_iff_mul_le (by norm_num)]
    calc q * (top / 2) * 2 = q * (top / 2 * 2) := Nat.mul_assoc _ _ _
      _ ≤ q * top := Nat.mul_le_mul_left _ (div_mul_le_self _ _)
      _ ≤ d₀ + d₁ * digitBase := hmul
  dsimp only
  split_ifs with hmask
  · exact hstore hq le_rfl
  · exact hstore hle (Nat.not_lt.mp hmask)

omit h hr hdiv hu in
/-- **The estimate is not too low** for pairs of digits. -/
theorem estimateQuotientPair_spec (h : IsDivisor .digitPair y n args ny) (hr : IsDigits r)
    (hdiv : Divided digitBase n y x (j + 2) (valueOf r u)) (hu : j + 2 + n ≤ u)
    (hlen : u ≤ r.length) :
    Returns False (estimateQuotientPair args r (j + n + 1)) fun args' => Writes 2 4 args args' ∧
      nextDigits digitBase n y j 2 (valueOf r u) ≤ wideAt .digitPair args' 2 := by
  have hq := hdiv.nextDigits_lt
  have hmul := h.nextDigits_mul_top_le hr hu
  have hwide := h.wideAt_le_top hr hdiv hu
  have htop := h.top_pos
  have htoplt := h.top_lt
  have hargs := h.args_length
  have heven := h.even
  have hpos := h.pos
  simp only [topOf, Mode.step] at hmul hwide htop htoplt
  generalize nextDigits digitBase n y j 2 (valueOf r u) = q at hq hmul ⊢
  have hstore : ∀ {v : ℕ}, q ≤ v → v < digitBase ^ 2 →
    Returns False (storePair args quotientDigit v)
      fun args' => Writes 2 4 args args' ∧ q ≤ wideAt .digitPair args' 2 := by
    intro v hqv hv
    refine (storePair_spec (by rw [hargs]; decide) hv).mono ?_
    rintro args' ⟨hw, hvalue⟩
    exact ⟨hw, by rw [show (2 : ℕ) = quotientDigit from rfl, hvalue]; exact hqv⟩
  unfold estimateQuotientPair
  refine returns_bind_of_eq (loadPair_eq (by rw [hargs]; decide)) ?_
  refine returns_bind_of_eq (loadPair_eq (by omega)) ?_
  rw [show j + n + 1 - 1 = j + n by omega]
  refine returns_ite (fun _ => hstore (by omega) (by omega)) fun hne => ?_
  refine returns_bind_of_eq (loadPair_eq (by omega)) ?_
  rw [show j + n + 1 - 3 = j + (n - 2) by omega]
  have hlow : wideAt .digitPair r (j + (n - 2)) < digitBase ^ 2 := wideAt_lt hr
  generalize wideAt .digitPair r (j + n) = dh at *
  generalize wideAt .digitPair args divisorLowTopDigit = top at *
  refine returns_bind_of_eq (if_pos (by omega)) (hstore ?_ ?_)
  · rwa [Nat.le_div_iff_mul_le (by omega)]
  · refine Nat.div_lt_of_lt_mul ?_
    have hdh : (dh + 1) * digitBase ^ 2 ≤ top * digitBase ^ 2 := Nat.mul_le_mul_right _ (by omega)
    rw [succ_mul] at hdh
    omega

/-- **The estimate is not too small.** -/
theorem Mode.estimateQuotientDigit_spec (hlen : u ≤ r.length) (hfour : 4 ≤ r.length) :
    Returns False (mode.estimateQuotientDigit args r (j + n + (mode.step - 1))) fun args' =>
      Writes 2 4 args args' ∧
        nextDigits digitBase n y j mode.step (valueOf r u) ≤ wideAt mode args' 2 := by
  cases mode with
  | digit =>
    refine (BigInt.estimateQuotientDigit_spec h hr hdiv hu hlen hfour).mono fun args' hargs' => ?_
    rw [wideAt_digit]
    exact hargs'
  | digitPair => exact estimateQuotientPair_spec h hr hdiv hu hlen

end

/-! ## Corrections -/

/-- The loop that corrects the estimate asks whether it is too high. -/
theorem Mode.isBelowEstimate_spec (hr : IsDigits r) (hargs : IsDigits args)
    (hlen : args.length = 4) (hi : i + mode.step ≤ r.length)
    (hle : wideAt mode r i ≤ wideAt mode args 2) :
    Returns False (mode.isBelowEstimate args r (i + (mode.step - 1))) fun b =>
      (b = true ↔ wideAt mode r i < wideAt mode args 2) := by
  cases mode with
  | digit =>
    refine returns_bind_of_eq (load_eq hi) ?_
    refine returns_bind_of_eq (load_eq (by rw [hlen]; decide)) ?_
    rw [wideAt_digit, wideAt_digit]
    exact decide_eq_true_iff
  | digitPair =>
    have h0 := hr i
    have h1 := hargs 2
    have hargs2 : wideAt .digitPair args 2 = digitAt args 2 + digitAt args 3 * digitBase :=
      wideAt_digitPair
    rw [wideAt_digitPair, hargs2, digitBase_eq] at hle
    rw [wideAt_digitPair, hargs2, digitBase_eq]
    rw [digitBase_eq] at h0 h1
    refine returns_bind_of_eq (load_eq hi) ?_
    refine returns_bind_of_eq (load_eq (by rw [hlen]; decide)) ?_
    show Returns False (guard (digitAt r (i + 1) ≤ digitAt args 3) >>= fun _ => _) _
    refine returns_bind_of_eq (if_pos (by omega)) ?_
    refine returns_ite (fun hlt => ?_) fun hge => ?_
    · have hlt' : digitAt r (i + 1) < digitAt args 3 := hlt
      exact iff_of_true rfl (by omega)
    have hge' : ¬digitAt r (i + 1) < digitAt args 3 := hge
    have hi' : i + 1 < r.length := hi
    refine returns_bind_of_eq (load_eq (by omega)) ?_
    refine returns_bind_of_eq (load_eq (by rw [hlen]; decide)) ?_
    refine decide_eq_true_iff.trans ?_
    show digitAt r i < digitAt args 2 ↔ _
    omega

/-- Decrementing a digit, with a borrow. -/
theorem decrementAt_spec {index : ℕ} (hargs : IsDigits args) (hlen : index < args.length) :
    Returns False (Mode.decrementAt args index) fun args' => Writes index (index + 1) args args' ∧
      digitAt args' index =
        if digitAt args index = 0 then digitMask else digitAt args index - 1 := by
  have hdigit := hargs index
  refine returns_bind_of_eq (load_eq hlen) ((store_spec hlen).mono ?_)
  rintro args' ⟨hw, hvalue⟩
  refine ⟨hw, hvalue.trans ?_⟩
  have hmask : digitMask = 2 ^ 32 - 1 := rfl
  rw [digitBase_eq] at *
  split_ifs <;> omega

/-- Decrementing the estimate, over both digits of a pair. -/
theorem Mode.decrement_spec (hargs : IsDigits args) (hlen : args.length = 4)
    (hpos : 0 < wideAt mode args 2) :
    Returns False (mode.decrement args) fun args' => Writes 2 4 args args' ∧
      wideAt mode args' 2 + 1 = wideAt mode args 2 := by
  cases mode with
  | digit =>
    rw [wideAt_digit] at *
    refine (decrementAt_spec hargs (by rw [hlen]; decide)).mono ?_
    rintro args' ⟨hw, hvalue⟩
    have hvalue' : digitAt args' 2 = digitAt args 2 - 1 := hvalue.trans (if_neg hpos.ne')
    refine ⟨hw.mono (by decide), ?_⟩
    rw [wideAt_digit]
    omega
  | digitPair =>
    have hwide : ∀ d, wideAt .digitPair d 2 = digitAt d 2 + digitAt d 3 * digitBase :=
      fun d => wideAt_digitPair
    rw [hwide] at hpos ⊢
    -- A borrow from the high digit, if the low digit is zero.
    have hborrow : Returns False (borrow args) fun args₁ => Writes 2 4 args args₁ ∧
        digitAt args₁ 2 = digitAt args 2 ∧
          digitAt args₁ 3 = digitAt args 3 - (if digitAt args 2 = 0 then 1 else 0) := by
      refine returns_bind_of_eq (load_eq (by rw [hlen]; decide)) ?_
      refine returns_ite (fun (hzero : digitAt args 2 = 0) => ?_)
        fun (hne : ¬digitAt args 2 = 0) => ⟨Writes.refl, rfl, by rw [if_neg hne]; rfl⟩
      have hhigh : digitAt args 3 ≠ 0 := fun h => by simp [hzero, h] at hpos
      refine (decrementAt_spec hargs (by rw [hlen]; decide)).mono ?_
      rintro args₁ ⟨hw, hvalue⟩
      refine ⟨hw.mono (by decide), hw.digitAt_eq 2 (.inl (by decide)), ?_⟩
      rw [if_pos hzero]
      exact hvalue.trans (if_neg hhigh)
    refine hborrow.bind ?_
    rintro args₁ ⟨hw1, hlow1, hhigh1⟩
    refine (decrementAt_spec (hw1.isDigits hargs) (by rw [hw1.length_eq, hlen]; decide)).mono ?_
    rintro args₂ ⟨hw2, hvalue⟩
    refine ⟨hw1.trans hw2 (by decide), ?_⟩
    have hhigh2 : digitAt args₂ 3 = digitAt args₁ 3 := hw2.digitAt_eq 3 (.inr (by decide))
    have hlow2 : digitAt args₂ 2
        = if digitAt args₁ 2 = 0 then digitMask else digitAt args₁ 2 - 1 := hvalue
    rw [hwide, hhigh2, hlow2, hlow1, hhigh1]
    rw [show digitMask = 2 ^ 32 - 1 from rfl, digitBase_eq] at *
    split_ifs <;> omega

/-- **The correction loop** brings an estimate that is not too small down to the next digits. -/
theorem Mode.correct_spec {v count tmpUsed : ℕ} (hb : IsDivisor mode y n args ny) (hr : IsDigits r)
    (hlen : u ≤ r.length) (hu : j + mode.step + n ≤ u)
    (htmpUsed : 0 < tmpUsed) (htmpLen : tmpUsed ≤ tmp.length) (htmpLe : tmpUsed ≤ u)
    (htmpValue : valueOf tmp tmpUsed = (digitBase ^ n - y) * digitBase ^ j)
    (hcount : wideAt mode args 2 < count)
    (hq : nextDigits digitBase n y j mode.step v ≤ wideAt mode args 2)
    (hvalue : valueOf r u = tryDigits digitBase n y j v (wideAt mode args 2)) :
    Returns False (mode.correct tmp tmpUsed u (j + n + (mode.step - 1)) count args r) fun s =>
      Writes 2 4 args s.1 ∧ Writes 0 u r s.2 ∧
        valueOf s.2 u = tryDigits digitBase n y j v (nextDigits digitBase n y j mode.step v) := by
  induction count generalizing args r with
  | zero => exact absurd hcount (Nat.not_lt_zero _)
  | succ count ih =>
    have hlt : wideAt mode args 2 < digitBase ^ mode.step := wideAt_lt hb.args_isDigits
    obtain ⟨hle, hiff, -⟩ := digits_of_estimate digitBase_pos hb.pos_y hb.lt_pow.le hq hlt
    rw [← hvalue, ← wideAt_eq_div_mod hr (by omega)] at hle hiff
    refine (isBelowEstimate_spec hr hb.args_isDigits hb.args_length (by omega) hle).bind
      fun b hbelow => ?_
    -- Either the estimate is too large by one at least, or it is the digit.
    refine returns_ite (fun htrue => ?_) fun hfalse => ?_
    · have hgt := hiff.mp (hbelow.mp htrue)
      obtain ⟨q, hqeq⟩ : ∃ q, wideAt mode args 2 = q + 1 := ⟨wideAt mode args 2 - 1, by omega⟩
      have hstep : valueOf r u
          = tryDigits digitBase n y j v q + (digitBase ^ n - y) * digitBase ^ j := by
        rw [hvalue, hqeq, tryDigits_succ]
      refine (absSub_spec (x := .result) (y := .array tmp) hr htmpLe htmpUsed hlen htmpLen hlen hr
        (by show valueOf tmp tmpUsed ≤ valueOf r u; omega)).bind ?_
      rintro r₁ ⟨hw1, hvalue1⟩
      refine (decrement_spec hb.args_isDigits hb.args_length (by omega)).bind ?_
      rintro args₁ ⟨hwargs, hdec⟩
      have hq1 : wideAt mode args₁ 2 = q := by omega
      have hval1 : valueOf r₁ u = valueOf r u - valueOf tmp tmpUsed := hvalue1
      refine (ih (hb.of_writes hwargs) (hw1.isDigits hr) (by rw [hw1.length_eq]; exact hlen)
        (by omega) (by omega) (by rw [hval1, hstep, htmpValue, hq1, Nat.add_sub_cancel])).mono ?_
      rintro s ⟨hs1, hs2, hs3⟩
      exact ⟨hwargs.trans hs1 (by omega), hw1.trans hs2 (by omega), hs3⟩
    · have hge : ¬nextDigits digitBase n y j mode.step v < wideAt mode args 2 :=
        fun h => hfalse (hbelow.mpr (hiff.mpr h))
      exact ⟨Writes.refl, Writes.refl, by
        rw [hvalue, show wideAt mode args 2 = nextDigits digitBase n y j mode.step v by omega]⟩

/-- The estimate is read back from the argument array. -/
theorem Mode.loadEstimate_eq (hlen : args.length = 4) :
    mode.loadEstimate args = some (wideAt mode args 2) := by
  cases mode with
  | digit =>
    rw [wideAt_digit]
    exact load_eq (by rw [hlen]; decide)
  | digitPair => exact loadPair_eq (by rw [hlen]; decide)

/-- What the division loop keeps: the sizes of the arrays, and the register of the division. -/
structure Dividing (mode : Mode) (y n x u j : ℕ) (ny : Digits) (tmpLen resultLen : ℕ)
    (s : DivArrays) :
    Prop where
  divisor : IsDivisor mode y n s.args ny
  tmp_isDigits : IsDigits s.tmpDigits
  tmp_length : s.tmpDigits.length = tmpLen
  isDigits : IsDigits s.resultDigits
  length_eq : s.resultDigits.length = resultLen
  divided : Divided digitBase n y x j (valueOf s.resultDigits u)

/-- **One step of the division loop.** -/
theorem Mode.divideStep_spec
    (h : Dividing mode y n x u (j + mode.step) ny tmpLen resultLen s) (hfour : 4 ≤ resultLen)
    (hu : j + mode.step + n ≤ u) (hlen : u ≤ resultLen) (htmp : n + j + (n + j) % 2 ≤ tmpLen) :
    Returns False (mode.divideStep ny n u s j) fun s' =>
      Dividing mode y n x u j ny tmpLen resultLen s' := by
  have hr := h.isDigits
  have hrlen : u ≤ s.resultDigits.length := by rw [h.length_eq]; exact hlen
  unfold Mode.divideStep
  refine (Mode.estimateQuotientDigit_spec h.divisor hr h.divided hu hrlen
    (by rw [h.length_eq]; exact hfour)).bind ?_
  rintro args ⟨hwargs, hq⟩
  have hdivisor := h.divisor.of_writes hwargs
  have hlt : wideAt mode args 2 < digitBase ^ mode.step := wideAt_lt hdivisor.args_isDigits
  obtain ⟨hle, hiff, htop⟩ :=
    digits_of_estimate digitBase_pos hdivisor.pos_y hdivisor.lt_pow.le hq hlt
  have hnyValue : valueFrom ny 0 (mode.roundUp n) = digitBase ^ n - y := by
    rw [hdivisor.roundUp_eq, ← hdivisor.ny_value, valueFrom_zero]
  -- The sum stays within the digits of this step, as the digits above it do not change.
  have hroom : valueOf s.resultDigits (j + mode.step + n)
      + wideAt mode args 2 * (digitBase ^ n - y) * digitBase ^ j <
        digitBase ^ (j + mode.step + n) := by
    have hmod : valueOf s.resultDigits u % digitBase ^ (j + mode.step + n)
        = valueOf s.resultDigits (j + mode.step + n) := value_mod hu fun i _ => hr i
    have hv := div_add_mod (valueOf s.resultDigits u) (digitBase ^ (j + mode.step + n))
    have ht := div_add_mod (tryDigits digitBase n y j (valueOf s.resultDigits u)
      (wideAt mode args 2)) (digitBase ^ (j + mode.step + n))
    have hmlt := mod_lt (tryDigits digitBase n y j (valueOf s.resultDigits u)
      (wideAt mode args 2)) (Nat.pow_pos (n := j + mode.step + n) digitBase_pos)
    rw [htop] at ht
    unfold tryDigits at ht hmlt
    omega
  have hroundUp := hdivisor.roundUp_eq
  have hnylen := hdivisor.ny_length
  refine (Mode.mulAdd_spec
    (l := j + mode.step + n) mode hdivisor.args_isDigits hdivisor.ny_isDigits hr
    (by rw [hdivisor.args_length]; cases mode <;> decide) (by rw [hroundUp]; omega)
    (by rw [hroundUp]; omega) ?_ (by omega) (by rw [hnyValue]; exact hroom)).bind ?_
  · have heven := hdivisor.even
    cases mode <;> simp only [Mode.step] <;> omega
  rintro r ⟨hw, hvalue⟩
  have hr1 := hw.isDigits hr
  have hrlen1 : u ≤ r.length := by rw [hw.length_eq]; exact hrlen
  have hvalue1 : valueOf r u
      = tryDigits digitBase n y j (valueOf s.resultDigits u) (wideAt mode args 2) := by
    rw [hnyValue] at hvalue
    exact hw.valueOf_add hu hvalue
  rw [← hvalue1, ← wideAt_eq_div_mod hr1 (by omega)] at hle hiff
  have hlength : r.length = resultLen := hw.length_eq.trans h.length_eq
  refine (isBelowEstimate_spec hr1 hdivisor.args_isDigits hdivisor.args_length (by omega)
    hle).bind fun b hbelow => ?_
  refine returns_ite (fun htrue => ?_) fun hfalse => ?_
  · have heven := hdivisor.even
    refine (dlShiftDigits_spec (x := .array ny) hdivisor.pos hdivisor.ny_isDigits hdivisor.ny_length
      (by rw [h.tmp_length]; exact htmp) fun hodd => absurd hodd (by omega)).bind ?_
    rintro ⟨tmpUsed, tmp⟩ ⟨rfl, hwtmp, htmpValue, -⟩
    refine returns_bind_of_eq (loadEstimate_eq hdivisor.args_length) ?_
    refine (correct_spec hdivisor hr1 hrlen1 hu (by have := hdivisor.pos; omega)
      (by rw [hwtmp.length_eq, h.tmp_length]; omega) (by omega)
      (htmpValue.trans (congrArg (· * _) hdivisor.ny_value)) (lt_succ_self _) hq hvalue1).bind ?_
    rintro ⟨args₁, r₁⟩ ⟨hw1, hw2, hvalue2⟩
    exact ⟨hdivisor.of_writes hw1, hwtmp.isDigits h.tmp_isDigits,
      hwtmp.length_eq.trans h.tmp_length, hw2.isDigits hr1, hw2.length_eq.trans hlength,
      by rw [hvalue2]; exact h.divided.step digitBase_pos hdivisor.pos_y hdivisor.lt_pow.le⟩
  · have hge : ¬nextDigits digitBase n y j mode.step (valueOf s.resultDigits u)
        < wideAt mode args 2 := fun h => hfalse (hbelow.mpr (hiff.mpr h))
    rw [show wideAt mode args 2 = nextDigits digitBase n y j mode.step (valueOf s.resultDigits u)
      by omega] at hvalue1
    exact ⟨hdivisor, h.tmp_isDigits, h.tmp_length, hr1, hlength,
      by rw [hvalue1]; exact h.divided.step digitBase_pos hdivisor.pos_y hdivisor.lt_pow.le⟩

/-- **The division loop** finds all missing digits of the quotient. -/
theorem Mode.divideLoop_spec
    (h : Dividing mode y n x u j ny tmpLen resultLen s) (hfour : 4 ≤ resultLen)
    (hj : j % mode.step = 0) (hu : j + n ≤ u) (hlen : u ≤ resultLen)
    (htmp : n + j ≤ tmpLen) (heven : n % 2 = 0) (hjeven : j % 2 = 0) :
    Returns False (mode.divideLoop ny n u j s) fun s' =>
      Dividing mode y n x u 0 ny tmpLen resultLen s' := by
  have hmul : j / mode.step * mode.step = j := Nat.div_mul_cancel (dvd_of_mod_eq_zero hj)
  refine (returns_down (fun k s => Dividing mode y n x u (k * mode.step) ny tmpLen resultLen s)
    (by rw [hmul]; exact h) ?_).mono ?_
  · rintro k s hk hs
    have hkj : k * mode.step + mode.step ≤ j := by
      calc k * mode.step + mode.step = (k + 1) * mode.step := by ring
        _ ≤ j / mode.step * mode.step := Nat.mul_le_mul_right _ hk
        _ = j := hmul
    have hs' : Dividing mode y n x u (k * mode.step + mode.step) ny tmpLen resultLen s := by
      rwa [← succ_mul]
    refine divideStep_spec hs' hfour (by omega) hlen ?_
    omega
  · rintro s hs
    rwa [Nat.zero_mul] at hs

end DartVm.BigInt
