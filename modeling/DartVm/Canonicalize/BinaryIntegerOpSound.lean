import DartVm.Canonicalize.BinaryIntegerOp

/-! # What canonicalization does to a binary integer operation

The proof goes from the low bits of a representation to constant folding and one lemma for each
family of cases on the right constant.

* `Instr.Overfolds`: an operation that deoptimizes, where the evaluator has a value for it.
* `Instr.execute_simplify`: the cases on the right constant keep the outcome.
* `Instr.canonicalize_execute_iff`: the replacement has the outcome of the operation just when that
  does not overfold. -/

namespace DartVm.BinaryIntegerOp

open Int

/-! ## Low bits -/

namespace Representation

variable {t : Target} {r : Representation} {v a b : ℤ}

/-- Only the low bits of a value matter for its representation. -/
theorem low_congr (h : a % 2 ^ r.bits t = b % 2 ^ r.bits t) : r.low t a = r.low t b := by
  have hbmod : a.bmod (2 ^ r.bits t) = b.bmod (2 ^ r.bits t) := by
    rw [← emod_bmod a, ← emod_bmod b]
    push_cast
    rw [h]
  cases r with
  | unboxedUint32 => exact h
  | _ => exact hbmod

/-- What is cut to a representation is in it. -/
theorem holds_low (r : Representation) (v : ℤ) : r.Holds t (r.low t v) := by
  rcases t.supported with h | h <;> cases r <;>
    simp only [Holds, low, bits, Target.smiMin, Target.smiMax, isInt64_iff, bmod_def, h] <;>
    norm_num <;> omega

/-- The low bits of a value that the representation holds are the value. -/
theorem low_of_holds (h : r.Holds t v) : r.low t v = v := by
  rcases t.supported with hb | hb <;> cases r <;>
    simp only [Holds, low, bits, Target.smiMin, Target.smiMax, isInt64_iff, bmod_def, hb]
      at h ⊢ <;>
    norm_num at h ⊢ <;> omega

/-- Cutting twice is cutting once. -/
theorem low_low : r.low t (r.low t v) = r.low t v := low_of_holds (holds_low r v)

/-- No representation has more than 64 bits. -/
theorem bits_le (r : Representation) : r.bits t ≤ 64 := by
  rcases t.supported with h | h <;> cases r <;> simp [bits, h]

/-- Cutting keeps the low bits. -/
theorem low_emod : r.low t v % 2 ^ r.bits t = v % 2 ^ r.bits t := by
  cases r with
  | unboxedUint32 => exact emod_emod_of_dvd v (dvd_refl _)
  | _ => exact bmod_emod

/-- Wrapping to 64 bits first makes no difference. -/
theorem low_wrap64 : r.low t (wrap64 v) = r.low t v := by
  have hdvd : (2 : ℤ) ^ r.bits t ∣ 2 ^ 64 := pow_dvd_pow 2 (bits_le r)
  apply low_congr
  rw [← emod_emod_of_dvd _ hdvd, wrap64_emod, emod_emod_of_dvd _ hdvd]

/-- Every representation is a part of the 64-bit integers. -/
theorem isInt64_of_holds (h : r.Holds t v) : IsInt64 v := by
  have := t.smi_bounds
  cases r <;> simp only [Holds, isInt64_iff] at h ⊢ <;> omega

/-- `IsConstantRepresentable` asks whether the representation holds the constant. -/
theorem isConstantRepresentable_iff (hv : IsInt64 v) :
    r.isConstantRepresentable t v = true ↔ r.Holds t v := by
  cases r <;> simp [isConstantRepresentable, Holds, RangeBoundary.isInt, hv]

/-- **`TruncateTo`** keeps the low bits. -/
theorem truncateTo_eq_low (hv : IsInt64 v) : r.truncateTo t v = r.low t v := by
  rcases t.supported with h | h <;> cases r <;>
    simp only [truncateTo, low, bits, wrap64, bmod_def, isInt64_iff, h] at hv ⊢ <;>
    norm_num at hv ⊢ <;> split <;> (try split) <;> omega

/-- The mask of a representation of fewer than 64 bits. -/
theorem mask_of_lt (h : r.bits t < 64) : r.mask t = 2 ^ r.bits t - 1 := by
  have hsplit : (2 : ℤ) ^ 64 = 2 ^ r.bits t * 2 ^ (64 - r.bits t) := by
    rw [← pow_add]
    congr 1
    omega
  have hhigh : (0 : ℤ) < 2 ^ (64 - r.bits t) := by positivity
  have hlow : (2 : ℤ) ^ r.bits t ≤ 2 ^ 63 := pow_le_pow_right₀ (by norm_num) (by omega)
  have hone : (0 : ℤ) < 2 ^ r.bits t := by positivity
  have hdiv : ((2 : ℤ) ^ 64 - 1) / 2 ^ (64 - r.bits t) = 2 ^ r.bits t - 1 := by
    have hsum : (2 : ℤ) ^ 64 - 1 =
        (2 ^ (64 - r.bits t) - 1) + (2 ^ r.bits t - 1) * 2 ^ (64 - r.bits t) := by
      rw [hsplit]
      ring
    rw [hsum, add_mul_ediv_right _ _ hhigh.ne', ediv_eq_zero_of_lt (by omega) (by omega),
      zero_add]
  rw [mask, hdiv]
  exact wrap64_of_isInt64 (isInt64_iff.mpr ⟨by omega, by omega⟩)

/-- The mask of a signed representation of less than 64 bits is not one of its values. -/
theorem not_holds_mask (hr : r = .tagged ∨ r = .unboxedInt32) : ¬ r.Holds t (r.mask t) := by
  have hbits : r.bits t < 64 := by
    rcases t.supported with h | h <;> rcases hr with rfl | rfl <;> simp [bits, h]
  rw [mask_of_lt hbits]
  rcases hr with rfl | rfl
  · simp only [Holds, bits, Target.smiMax, pow_succ]
    have : (0 : ℤ) < 2 ^ t.smiBits := by positivity
    omega
  · simp [Holds, bits]

/-- The mask of unsigned 32-bit integers. -/
theorem mask_unboxedUint32 : mask t .unboxedUint32 = 2 ^ 32 - 1 := mask_of_lt (by simp [bits])

/-- The mask of 64-bit integers is -1. -/
theorem mask_unboxedInt64 : mask t .unboxedInt64 = -1 := by
  have h : ((2 : ℤ) ^ 64 - 1) / 2 ^ (64 - bits t .unboxedInt64) = -1 + 1 * ((2 ^ 64 : ℕ) : ℤ) := by
    norm_num [bits]
  rw [mask, h, wrap64, add_mul_bmod_self_right]
  exact wrap64_of_isInt64 (by decide)

/-- Equal bit vectors stand for equal values of a representation. -/
theorem low_congr_ofInt (h : BitVec.ofInt (r.bits t) a = BitVec.ofInt (r.bits t) b) :
    r.low t a = r.low t b :=
  low_congr (ofInt_eq_ofInt_iff.mp h)

/-- Cutting does not change the bit vector. -/
theorem ofInt_low : BitVec.ofInt (r.bits t) (r.low t v) = BitVec.ofInt (r.bits t) v :=
  ofInt_eq_ofInt_iff.mpr low_emod

/-- The mask is all ones in the representations without unused high bits. -/
theorem ofInt_mask (hr : r = .unboxedUint32 ∨ r = .unboxedInt64) :
    BitVec.ofInt (r.bits t) (r.mask t) = BitVec.allOnes (r.bits t) := by
  rcases hr with rfl | rfl
  · rw [mask_unboxedUint32, ← BitVec.toNat_inj]
    rfl
  · rw [mask_unboxedInt64, ← BitVec.toNat_inj]
    norm_num [bits]
    rfl

end Representation

/-! ## Exact and 64-bit results -/

section Results

open BinaryIntegerOp.Representation

variable {t : Target} {r : Representation} {op : Token} {a b e : ℤ}

/-- **The value of the Dart operation** is the exact result in 64 bits. -/
theorem evalBinaryOp_eq (ha : IsInt64 a) (hb : IsInt64 b) :
    evalBinaryOp op a b = (exactResult op a b).map wrap64 := by
  cases op with
  | truncDiv => simp only [evalBinaryOp, exactResult]; split <;> rfl
  | mod =>
    simp only [evalBinaryOp, exactResult]
    split
    · rfl
    next h0 =>
    have h₁ := emod_nonneg a h0
    have h₂ := emod_lt_abs a h0
    rw [isInt64_iff] at hb
    rw [Option.map_some, wrap64_of_isInt64]
    rw [isInt64_iff]
    rw [abs_eq_natAbs] at h₂
    omega
  | shl =>
    simp only [evalBinaryOp, exactResult]
    split
    · rfl
    · rw [Option.map_some, Range.shl_eq_wrap64]
  | shr =>
    simp only [evalBinaryOp, exactResult]
    split
    · rfl
    · rw [Option.map_some, wrap64_of_isInt64 (Range.isInt64_ediv_pow ha _), Range.shr_eq_ediv ha]
  | ushr =>
    simp only [evalBinaryOp, exactResult]
    split
    · rfl
    · rw [Option.map_some, wrap64_of_isInt64 (isInt64_wrap64 _), Range.ushr_eq_wrap64]
  | bitAnd | bitOr | bitXor => exact congrArg some (wrap64_of_isInt64 (isInt64_toInt _)).symm
  | add => rfl
  | sub => rfl
  | mul => rfl
  | other => rfl

/-- Operations for which the source commutes operands do commute. -/
theorem exactResult_comm (hop : isCommutative op = true) (a b : ℤ) :
    exactResult op a b = exactResult op b a := by
  cases op with
  | add => exact congrArg some (add_comm a b)
  | mul => exact congrArg some (mul_comm a b)
  | bitAnd => exact congrArg (fun x : BitVec 64 => some x.toInt) (BitVec.and_comm _ _)
  | bitOr => exact congrArg (fun x : BitVec 64 => some x.toInt) (BitVec.or_comm _ _)
  | bitXor => exact congrArg (fun x : BitVec 64 => some x.toInt) (BitVec.xor_comm _ _)
  | _ => exact absurd hop (by decide)

/-- A bitwise operation may cut its right operand first. -/
theorem low_bitwise64 {f : BitVec 64 → BitVec 64 → BitVec 64}
    {lowOp : BitVec (r.bits t) → BitVec (r.bits t) → BitVec (r.bits t)}
    (hf : ∀ x y, (f x y).setWidth (r.bits t) = lowOp (x.setWidth _) (y.setWidth _)) :
    r.low t (bitwise64 f a (r.low t b)) = r.low t (bitwise64 f a b) := by
  apply low_congr_ofInt
  rw [ofInt_bitwise64 (bits_le r) hf, ofInt_bitwise64 (bits_le r) hf, ofInt_low]

/-- The low bits of an arithmetic result depend on the low bits of the right operand only. -/
theorem exactResult_low (hop : isShift op = false) (hdiv : op ≠ .truncDiv) (hmod : op ≠ .mod)
    (he : exactResult op a b = some e) :
    ∃ e', exactResult op a (r.low t b) = some e' ∧ r.low t e' = r.low t e := by
  have hb : r.low t b % 2 ^ r.bits t = b % 2 ^ r.bits t := low_emod
  cases op with
  | add =>
    cases he
    exact ⟨_, rfl, low_congr (by rw [add_emod, hb, ← add_emod])⟩
  | sub =>
    cases he
    exact ⟨_, rfl, low_congr (by rw [sub_emod, hb, ← sub_emod])⟩
  | mul =>
    cases he
    exact ⟨_, rfl, low_congr (by rw [mul_emod, hb, ← mul_emod])⟩
  | bitAnd =>
    cases he
    exact ⟨_, rfl, low_bitwise64 fun _ _ => BitVec.setWidth_and⟩
  | bitOr =>
    cases he
    exact ⟨_, rfl, low_bitwise64 fun _ _ => BitVec.setWidth_or⟩
  | bitXor =>
    cases he
    exact ⟨_, rfl, low_bitwise64 fun _ _ => BitVec.setWidth_xor⟩
  | truncDiv => exact absurd rfl hdiv
  | mod => exact absurd rfl hmod
  | shl | shr | ushr => exact absurd hop (by decide)
  | other => exact absurd he (by simp [exactResult])

end Results

/-! ## Outcomes -/

namespace Instr

open BinaryIntegerOp.Representation

variable {t : Target} {ρ : ℕ → ℤ} {i : Instr} {e v : ℤ} {op : Token}

/-- The evaluator has a value for the operation: its operands are constants, and the exact result
`e` is truncated or fits the representation after the wrap-around to 64 bits. -/
def FoldsTo (t : Target) (i : Instr) (e : ℤ) : Prop :=
  ∃ a b, i.left = .constant a ∧ i.right = .constant b ∧ exactResult i.opKind a b = some e ∧
    (i.isTruncating = true ∨ i.representation.Holds t (wrap64 e))

/-- **Overfolding.** The operation deoptimizes, on overflow or on its count, where canonicalization
has a value: that of two constants, or the 0 of a shift by 64 or more. -/
def Overfolds (t : Target) (ρ : ℕ → ℤ) (i : Instr) : Prop :=
  i.execute t ρ = .deoptimizes ∧ ((∃ e, i.FoldsTo t e) ∨
    (i.opKind = .shl ∨ i.opKind = .ushr) ∧ ∃ c, i.right.toIntegerConstant t = some c ∧ 64 ≤ c)

/-- The left operand is a value of the representation. -/
theorem holds_leftValue (i : Instr) : i.representation.Holds t (i.leftValue t ρ) := holds_low _ _

/-- The left operand is a 64-bit integer. -/
theorem isInt64_leftValue (i : Instr) : IsInt64 (i.leftValue t ρ) :=
  isInt64_of_holds (holds_leftValue i)

/-- Shift counts are not cut. -/
theorem rightValue_of_shift (hop : isShift i.opKind = true) :
    i.rightValue t ρ = i.right.value t ρ := if_pos hop

/-- Other right operands are cut to the representation. -/
theorem rightValue_of_not_shift (hop : isShift i.opKind = false) :
    i.rightValue t ρ = i.representation.low t (i.right.value t ρ) := by
  unfold rightValue
  rw [hop]
  rfl

/-- Only shifts refuse a right operand. -/
theorem refusesCount_of_not_shift (hop : isShift i.opKind = false) :
    i.refusesCount t ρ = false := by
  have hshl : i.opKind ≠ .shl := by
    rintro heq
    simp [heq, isShift] at hop
  have hspec : i.isSpeculativeShiftInt64 = false := by simp [isSpeculativeShiftInt64, hop]
  unfold refusesCount
  split <;> simp [hspec, hshl]

/-- No shift deoptimizes on the constant count 0. -/
theorem refusesCount_of_zero (hright : i.right.toIntegerConstant t = some 0) :
    i.refusesCount t ρ = false := by
  have hbits : i.representation.bits t ≠ 0 := by cases i.representation <;> simp [bits]
  simp only [refusesCount, hright]
  split <;> simp [hbits]

/-- **An operation whose result fits** has it as its value. -/
theorem execute_of_holds (hv : i.representation.Holds t v)
    (he : exactResult i.opKind (i.leftValue t ρ) (i.rightValue t ρ) = some v)
    (hcount : i.refusesCount t ρ = false) : i.execute t ρ = .value v := by
  have hrep := (isConstantRepresentable_iff (isInt64_of_holds hv)).mpr hv
  unfold execute store
  simp [he, hcount, hrep, low_of_holds hv]

/-- An operation that does not deoptimize has the low bits of its result as its value. -/
theorem execute_of_result (he : exactResult i.opKind (i.leftValue t ρ) (i.rightValue t ρ) = some e)
    (hne : i.execute t ρ ≠ .deoptimizes) : i.execute t ρ = .value (i.representation.low t e) := by
  unfold execute store at *
  rw [he] at *
  dsimp only at *
  split_ifs at * <;> first | rfl | exact absurd rfl hne

section

variable (h : i.WellFormed t ρ) {a b : ℤ}
include h

omit h in
/-- A constant replacement evaluates to the constant. -/
theorem execute_of_tryCreate (hv : i.representation.Holds t v) :
    (i.tryCreateConstantReplacementFor t v).execute t ρ i.representation = .value v := by
  unfold tryCreateConstantReplacementFor
  rw [(isConstantRepresentable_iff (isInt64_of_holds hv)).mpr hv]
  exact congrArg Outcome.value (low_of_holds hv)

/-! ## Constant folding -/

/-- There are no 32-bit divisions. -/
theorem ne_division (hr : i.representation = .unboxedInt32 ∨ i.representation = .unboxedUint32) :
    i.opKind ≠ .truncDiv ∧ i.opKind ≠ .mod := by
  have hs := h.supported
  unfold isSupported at hs
  constructor <;> intro hop <;> rcases hr with hr | hr <;> simp [hr, hop] at hs

/-- The right constant and the right operand give results with the same low bits. -/
theorem exactResult_rightValue (hright : i.right = .constant b)
    (he : exactResult i.opKind a b = some e) :
    ∃ e', exactResult i.opKind a (i.rightValue t ρ) = some e' ∧
      i.representation.low t e' = i.representation.low t e := by
  have hval : i.right.value t ρ = b := by
    rw [hright]
    rfl
  by_cases hshift : isShift i.opKind = true
  · rw [rightValue_of_shift hshift, hval]
    exact ⟨e, he, rfl⟩
  rw [Bool.not_eq_true] at hshift
  rw [rightValue_of_not_shift hshift, hval]
  by_cases hr : i.representation = .unboxedUint32
  · obtain ⟨hdiv, hmod⟩ := ne_division h (.inr hr)
    exact exactResult_low hshift hdiv hmod he
  have hlow : i.representation.low t b = b := by
    refine low_of_holds ?_
    rw [← hval]
    cases hrep : i.representation with
    | tagged => exact hrep ▸ h.right_holds (.inl hrep)
    | unboxedInt32 => exact hrep ▸ h.right_holds (.inr hrep)
    | unboxedUint32 => exact absurd hrep hr
    | unboxedInt64 => exact h.right_int64
  rw [hlow]
  exact ⟨e, he, rfl⟩

/-- **`BinaryIntegerEvaluate`** gives the low bits of the exact result. -/
theorem foldedConstant_iff : i.foldedConstant t = some v ↔
    ∃ e, i.FoldsTo t e ∧ v = i.representation.low t e := by
  cases hleft : i.left with
  | unbox target value | other index => simp [foldedConstant, FoldsTo, hleft, Operand.boundConstant]
  | constant a =>
  cases hright : i.right with
  | unbox target value | other index =>
    simp [foldedConstant, FoldsTo, hright, Operand.boundConstant]
  | constant b =>
  have hb : IsInt64 b := by
    have := h.right_int64
    rwa [hright] at this
  have hfold : i.foldedConstant t =
      binaryIntegerEvaluate t a b i.opKind i.isTruncating i.representation := by
    simp [foldedConstant, hleft, hright, Operand.boundConstant]
  rw [hfold, binaryIntegerEvaluate, evalBinaryOp_eq (isInt64_of_holds (h.left_holds a hleft)) hb]
  simp only [FoldsTo, hleft, hright, Operand.constant.injEq]
  cases he : exactResult i.opKind a b with
  | none => simp [he]
  | some e =>
  rw [Option.map_some]
  dsimp only
  have hrep := isConstantRepresentable_iff (r := i.representation) (t := t) (isInt64_wrap64 e)
  cases htrunc : i.isTruncating with
  | true => simp [he, truncateTo_eq_low (isInt64_wrap64 e), low_wrap64, eq_comm]
  | false =>
    by_cases hholds : i.representation.Holds t (wrap64 e)
    · have hlow : i.representation.low t e = wrap64 e := by rw [← low_wrap64, low_of_holds hholds]
      simp [he, hrep.mpr hholds, hholds, hlow, eq_comm]
    · simp [he, hrep, hholds]

/-- A folded constant is a value of the representation. -/
theorem holds_foldedConstant (hv : i.foldedConstant t = some v) : i.representation.Holds t v := by
  obtain ⟨e, -, rfl⟩ := (foldedConstant_iff h).mp hv
  exact holds_low _ _

/-- **Constant folding** keeps the outcome of an operation that does not deoptimize. -/
theorem execute_foldedConstant (hv : i.foldedConstant t = some v)
    (hne : ¬ i.Overfolds t ρ) : i.execute t ρ = .value v := by
  obtain ⟨e, hfolds, rfl⟩ := (foldedConstant_iff h).mp hv
  have hexec : i.execute t ρ ≠ .deoptimizes := fun hdeopt => hne ⟨hdeopt, .inl ⟨e, hfolds⟩⟩
  obtain ⟨a, b, hleft, hright, he, -⟩ := hfolds
  have hl : i.leftValue t ρ = a := by
    rw [leftValue, hleft]
    exact low_of_holds (h.left_holds a hleft)
  obtain ⟨e', he', hlow⟩ := exactResult_rightValue h hright he
  rw [← hl] at he'
  rw [execute_of_result he' hexec, hlow]

end

/-! ## Exchanging the operands -/

/-- Shifts do not commute. -/
theorem isShift_of_isCommutative (h : isCommutative op = true) :
    isShift op = false := by
  cases op <;> first | rfl | exact absurd h (by decide)

/-- A constant on the left of a commutative operation is moved to the right; nothing else
changes. -/
theorem commuteConstant_cases (i : Instr) :
    i.commuteConstant = i ∨
      (i.commuteConstant = { i with left := i.right, right := i.left } ∧
        isCommutative i.opKind = true ∧ (∃ c, i.left = .constant c) ∧
        ∀ c, i.right ≠ .constant c) := by
  unfold commuteConstant
  split
  · next hc =>
    simp only [Bool.and_eq_true, Bool.not_eq_true', Option.isSome_iff_exists] at hc
    obtain ⟨⟨⟨c, hleft⟩, hright⟩, hcomm⟩ := hc
    refine .inr ⟨rfl, hcomm, ⟨c, ?_⟩, ?_⟩
    · cases hl : i.left <;> simp_all [Operand.boundConstant]
    · intro c' hc'
      simp [hc', Operand.boundConstant] at hright
  · exact .inl rfl

/-- Exchanging the operands of a commutative operation does not change its outcome. -/
theorem commuteConstant_spec (h : i.WellFormed t ρ) :
    i.commuteConstant.WellFormed t ρ ∧ i.commuteConstant.representation = i.representation ∧
      i.commuteConstant.execute t ρ = i.execute t ρ := by
  rcases commuteConstant_cases i with heq | ⟨heq, hcomm, ⟨c, hleft⟩, hright⟩
  · rw [heq]
    exact ⟨h, rfl, rfl⟩
  have hshift := isShift_of_isCommutative hcomm
  rw [heq]
  have hl : leftValue t ρ { i with left := i.right, right := i.left } = i.rightValue t ρ :=
    (rightValue_of_not_shift hshift).symm
  have hr : rightValue t ρ { i with left := i.right, right := i.left } = i.leftValue t ρ :=
    rightValue_of_not_shift hshift
  have hholds : i.representation.Holds t (i.left.value t ρ) := by
    rw [hleft]
    exact h.left_holds c hleft
  refine ⟨⟨?_, h.truncating, h.unboxed, fun c' hc' => absurd hc' (hright c'),
    isInt64_of_holds hholds, fun _ => hholds⟩, rfl, ?_⟩
  · have hs := h.supported
    unfold isSupported at hs ⊢
    cases hrep : i.representation <;> cases hop : i.opKind <;>
      simp_all [isShift, isCommutative]
  · unfold execute
    rw [refusesCount_of_not_shift hshift,
      refusesCount_of_not_shift (i := { i with left := i.right, right := i.left }) hshift, hl, hr,
      exactResult_comm hcomm]
    rfl

/-! ## Special right constants -/

section Special

variable {rhs c : ℤ}

/-- A constant operand has that value. -/
theorem value_of_toIntegerConstant (o : Operand) (ho : o.toIntegerConstant t = some c) :
    o.value t ρ = c := by
  induction o generalizing c with
  | constant c' => exact Option.some.inj ho
  | other index => exact absurd ho (by simp [Operand.toIntegerConstant])
  | unbox target value ih =>
    cases target with
    | unboxedInt64 => exact ih ho
    | unboxedUint32 =>
      obtain ⟨c', hc', rfl⟩ := Option.map_eq_some_iff.mp ho
      have := ih hc'
      simp [Operand.value, low, truncateTo, this]
    | tagged | unboxedInt32 => exact absurd ho (by simp [Operand.toIntegerConstant])

/-- The constant that the rules compare with agrees with the operand on the bits that matter. -/
theorem low_comparedConstant (i : Instr) (hrhs : IsInt64 rhs) :
    i.representation.low t (i.comparedConstant t rhs) = i.representation.low t rhs := by
  unfold comparedConstant
  split
  · split <;> first | rfl | rw [truncateTo_eq_low hrhs, low_low]
  · rfl

/-- The constant that the rules compare with is in the representation. -/
theorem holds_comparedConstant (hrhs : i.representation.Holds t rhs) :
    i.representation.Holds t (i.comparedConstant t rhs) := by
  unfold comparedConstant
  split
  · split <;> first
      | exact hrhs
      | (rw [truncateTo_eq_low (isInt64_of_holds hrhs)]; exact holds_low _ _)
  · exact hrhs

/-- For shifts and divisions the constant is compared as it is. -/
theorem comparedConstant_of_not_arithmetic (i : Instr)
    (hop : isShift i.opKind = true ∨ i.opKind = .truncDiv ∨ i.opKind = .mod) :
    i.comparedConstant t rhs = rhs := by
  unfold comparedConstant
  split
  · split <;> simp_all [isShift]
  · rfl

/-- Every representation holds 0, 1 and 2. -/
theorem holds_small {r : Representation} (h₀ : 0 ≤ c) (h₂ : c ≤ 2) : r.Holds t c := by
  rcases t.supported with h | h <;> cases r <;>
    simp only [Holds, Target.smiMin, Target.smiMax, isInt64_iff, h] <;> norm_num <;> omega

variable (h : i.WellFormed t ρ) {op : BitVec 64 → BitVec 64 → BitVec 64}
include h

/-- The right operand of an operation that is not a shift, from the compared constant. -/
theorem rightValue_of_compared (hop : isShift i.opKind = false)
    (hrhs : i.comparedConstant t (i.right.value t ρ) = rhs) :
    i.rightValue t ρ = i.representation.low t rhs := by
  rw [rightValue_of_not_shift hop, ← low_comparedConstant i h.right_int64, hrhs]

omit h in
/-- **A multiplication by two** is the shift by one that replaces it. -/
theorem execute_shiftByOne (hop : i.opKind = .mul) (hr : i.rightValue t ρ = 2) :
    i.execute t ρ = i.shiftByOne.execute t ρ := by
  have hchk : i.shiftByOne.checksOverflow t = i.checksOverflow t := by
    unfold checksOverflow shiftByOne
    rw [hop]
    cases i.representation <;> rfl
  have hbits : 1 < i.representation.bits t := by
    rcases t.supported with ht | ht <;> cases i.representation <;> simp [bits, ht]
  have hcount : i.shiftByOne.refusesCount t ρ = false := by
    simp only [refusesCount, shiftByOne, Operand.toIntegerConstant]
    split <;> simp
    omega
  have he : exactResult i.shiftByOne.opKind (i.shiftByOne.leftValue t ρ)
      (i.shiftByOne.rightValue t ρ) = some (i.leftValue t ρ * 2) := rfl
  unfold execute
  rw [refusesCount_of_not_shift (by rw [hop]; rfl), hcount, he, hr, hop]
  simp only [exactResult, store, hchk]
  rfl

/-- Only unsigned 32-bit and 64-bit integers have a constant equal to the mask. -/
theorem representation_of_mask
    (hmask : i.comparedConstant t (i.right.value t ρ) = i.representation.mask t) :
    i.representation = .unboxedUint32 ∨ i.representation = .unboxedInt64 := by
  have hne : ¬ (i.representation = .tagged ∨ i.representation = .unboxedInt32) := by
    intro hr
    have hholds := holds_comparedConstant (h.right_holds hr)
    rw [hmask] at hholds
    exact not_holds_mask hr hholds
  cases hrep : i.representation <;> simp_all

/-- **Replacement where the right operand is the mask**, by a value with the low bits of the
result. -/
theorem execute_of_mask (hmask : i.comparedConstant t (i.right.value t ρ) = i.representation.mask t)
    (hop : isShift i.opKind = false)
    {lowOp : ∀ {k}, BitVec k → BitVec k → BitVec k}
    (hlowOp : ∀ {k} (x y : BitVec 64), (op x y).setWidth k = lowOp (x.setWidth k) (y.setWidth k))
    (he : ∀ a b, exactResult i.opKind a b = some (bitwise64 op a b))
    (hv : BitVec.ofInt (i.representation.bits t) (i.right.value t ρ) = BitVec.allOnes _ →
      lowOp (BitVec.ofInt (i.representation.bits t) (i.leftValue t ρ)) (BitVec.allOnes _)
        = BitVec.ofInt _ v) : i.execute t ρ = .value (i.representation.low t v) := by
  have hrep := representation_of_mask h hmask
  have hones : BitVec.ofInt (i.representation.bits t) (i.right.value t ρ) = BitVec.allOnes _ := by
    rw [← ofInt_mask hrep, ← hmask, ← ofInt_low, ← low_comparedConstant i h.right_int64, ofInt_low]
  have hchk : i.checksOverflow t = false := by
    unfold checksOverflow
    rcases hrep with hr | hr <;> rw [hr]
  rw [← low_congr_ofInt]
  · simp only [execute, he, refusesCount_of_not_shift hop, store, hchk]
    rfl
  · rw [ofInt_bitwise64 (bits_le _) hlowOp, rightValue_of_not_shift hop, ofInt_low, hones, hv hones]

omit h in
/-- A right operand of zero that is neutral may be dropped. -/
theorem bitwise64_zero_right {a : ℤ} (ha : IsInt64 a)
    (hop : ∀ x, op x 0#64 = x) : bitwise64 op a 0 = a := by
  have hzero : BitVec.ofInt 64 0 = 0#64 := rfl
  rw [bitwise64, hzero, hop, toInt_ofInt_of_isInt64 ha]

omit h in
/-- The complement of a bit vector. -/
theorem not_ofInt (k : ℕ) (v : ℤ) : ~~~ BitVec.ofInt k v = BitVec.ofInt k (-v - 1) := by
  have hone : (1#k) = BitVec.ofInt k 1 := by simp
  rw [BitVec.not_eq_neg_add, BitVec.sub_eq_add_neg, hone, ← BitVec.ofInt_neg, ← BitVec.ofInt_neg,
    ← BitVec.ofInt_add, ← sub_eq_add_neg]

/-- Divisions are tagged or 64-bit operations, and hold -1. -/
theorem division_class (hop : i.opKind = .truncDiv ∨ i.opKind = .mod) :
    (i.representation = .tagged ∨ i.representation = .unboxedInt64) ∧
      i.representation.Holds t (-1) := by
  have hs := h.supported
  unfold isSupported at hs
  rcases hop with hop | hop <;> rcases t.supported with ht | ht <;>
    cases hr : i.representation <;>
    simp [hr, hop, Holds, Target.smiMin, Target.smiMax, isInt64_iff, ht] at hs ⊢

/-- **A division by -1** is the negation that replaces it, also where that deoptimizes. -/
theorem execute_negate (hop : i.opKind = .truncDiv) (hr : i.rightValue t ρ = -1) :
    i.execute t ρ = (i.makeUnary .negate).execute t ρ i.representation := by
  have hrep := (division_class h (.inl hop)).1
  have hunary : i.makeUnary .negate = .unary .negate i.left := by
    unfold makeUnary
    rcases hrep with hrep | hrep <;> rw [hrep]
  have hchk : i.checksOverflow t = decide (i.representation = .tagged) := by
    unfold checksOverflow
    rcases hrep with hrep | hrep <;> rw [hrep, hop] <;> rfl
  unfold execute
  rw [hunary, refusesCount_of_not_shift (by rw [hop]; rfl), hop, hr]
  simp only [exactResult, Replacement.execute, UnaryOp.execute, store, hchk]
  simp [leftValue]

omit h in
/-- A shift by a negative count fails as the deoptimization that replaces it does. -/
theorem execute_negative (hop : isShift i.opKind = true) (hneg : i.right.value t ρ < 0) :
    i.execute t ρ = (i.replaceByDeoptimize t).execute t ρ i.representation := by
  unfold replaceByDeoptimize
  split
  · rfl
  next hcan =>
  have hresult : exactResult i.opKind (i.leftValue t ρ) (i.rightValue t ρ) = none := by
    rw [rightValue_of_shift hop]
    cases hk : i.opKind <;> simp_all [exactResult, isShift]
  change i.execute t ρ = .deoptimizes
  unfold execute
  unfold canDeoptimize at hcan
  unfold failure
  cases hr : i.representation <;> simp_all

section Shl

variable (hop : i.opKind = .shl) (hright : i.right.toIntegerConstant t = some rhs)
  (hge : i.representation.bits t ≤ rhs)
include hop hright hge

omit h in
/-- A left shift by at least the width of the representation leaves nothing. -/
theorem exists_shl_result :
    ∃ e, exactResult i.opKind (i.leftValue t ρ) (i.rightValue t ρ) = some e ∧
    i.representation.low t e = 0 := by
  have hval : i.rightValue t ρ = rhs := by
    rw [rightValue_of_shift (by rw [hop]; rfl), value_of_toIntegerConstant _ hright]
  refine ⟨i.leftValue t ρ * 2 ^ rhs.toNat, ?_, ?_⟩
  · rw [hop, hval, exactResult, if_neg (by omega)]
  · have hdvd : (2 : ℤ) ^ i.representation.bits t ∣ i.leftValue t ρ * 2 ^ rhs.toNat :=
      Dvd.dvd.mul_left (pow_dvd_pow 2 (by omega)) _
    rw [low_congr (b := 0) (by rw [emod_eq_zero_of_dvd hdvd, zero_emod]),
      low_of_holds (holds_small le_rfl (by norm_num))]

/-- A left shift that truncates is 0 then. -/
theorem execute_shl_truncating (hlt : rhs < 64) (htrunc : i.isTruncating = true) :
    i.execute t ρ = .value 0 := by
  obtain ⟨e, he, hlow⟩ := exists_shl_result (ρ := ρ) hop hright hge
  rw [← hlow]
  refine execute_of_result he ?_
  have hspec : i.isSpeculativeShiftInt64 = false := by
    have hrep : i.representation ≠ .unboxedInt64 := by
      intro hrep
      rw [hrep, bits] at hge
      omega
    simp [isSpeculativeShiftInt64, hrep]
  have hchk : i.checksOverflow t = false := by
    unfold checksOverflow
    rw [hop]
    cases i.representation <;> simp [h.truncating htrunc]
  simp [execute, he, refusesCount, hright, hspec, htrunc, store, hchk]

/-- A left shift that does not truncate deoptimizes then, if it can. -/
theorem execute_shl_deoptimize (htrunc : i.isTruncating = false) :
    i.execute t ρ = (i.replaceByDeoptimize t).execute t ρ i.representation := by
  obtain ⟨e, he, -⟩ := exists_shl_result (ρ := ρ) hop hright hge
  have hspec : i.isSpeculativeShiftInt64 = false := by
    have hrep : i.representation ≠ .unboxedInt64 := by
      intro hrep
      rw [h.unboxed (.inr hrep)] at htrunc
      cases htrunc
    simp [isSpeculativeShiftInt64, hrep]
  unfold replaceByDeoptimize
  split
  · rfl
  next hcan =>
  rw [Bool.not_eq_true', Bool.not_eq_false] at hcan
  have hcount : i.refusesCount t ρ = true := by
    simp [refusesCount, hright, hspec, hop, htrunc, hcan, hge]
  simp [execute, he, hcount, Replacement.execute]

end Shl

/-- **The cases on the right constant** keep the outcome; a shift by 64 or more must not
deoptimize. -/
theorem execute_simplify (hright : i.right.toIntegerConstant t = some c)
    (hrhs : i.comparedConstant t c = rhs)
    (hlarge : i.opKind = .shl ∨ i.opKind = .ushr → 64 ≤ c → i.execute t ρ ≠ .deoptimizes) :
    i.execute t ρ = (i.simplify t rhs).execute t ρ i.representation := by
  have hval : i.right.value t ρ = c := value_of_toIntegerConstant _ hright
  have hcompared : i.comparedConstant t (i.right.value t ρ) = rhs := by rw [hval, hrhs]
  have hcount : isShift i.opKind = true → c = rhs ∧ i.rightValue t ρ = rhs := fun hop => by
    rw [rightValue_of_shift hop, hval, and_self, ← hrhs,
      comparedConstant_of_not_arithmetic i (.inl hop)]
  have hsmall : 0 ≤ rhs → rhs ≤ 2 → i.rightValue t ρ = rhs := fun h₀ h₂ => by
    cases hop : isShift i.opKind with
    | true => exact (hcount hop).2
    | false => rw [rightValue_of_compared h hop hcompared, low_of_holds (holds_small h₀ h₂)]
  have hzeroHolds : i.representation.Holds t 0 := holds_small le_rfl (by norm_num)
  -- Replacement by the left operand, or by a right operand that is zero.
  have hleft : ∀ {op c}, i.opKind = op → rhs = c → 0 ≤ c ∧ c ≤ 2 → (isShift op = true → c = 0) →
      exactResult op (i.leftValue t ρ) c = some (i.leftValue t ρ) →
      i.execute t ρ = .value (i.leftValue t ρ) := by
    rintro _ _ rfl rfl hc hshift he
    refine execute_of_holds (holds_leftValue i) (by rwa [hsmall hc.1 hc.2]) ?_
    cases hop : isShift i.opKind with
    | true => exact refusesCount_of_zero (by rw [hright, (hcount hop).1, hshift hop])
    | false => exact refusesCount_of_not_shift hop
  have hzero : isShift i.opKind = false → rhs = 0 →
      exactResult i.opKind (i.leftValue t ρ) 0 = some 0 →
      i.execute t ρ = .value (i.representation.low t (i.right.value t ρ)) := by
    intro hop h0 he
    have hr := hsmall h0.ge (by omega)
    rw [← rightValue_of_not_shift hop, hr, h0]
    exact execute_of_holds hzeroHolds (by rwa [hr, h0]) (refusesCount_of_not_shift hop)
  fun_cases simplify t i rhs with
  | case1 hop h1 =>
    exact hleft hop h1 (by decide) (by decide) (congrArg some (mul_one _))
  | case2 hop _ h0 =>
    exact hzero (by rw [hop]; rfl) h0 (by rw [hop]; exact congrArg some (mul_zero _))
  | case3 hop _ _ h2 =>
    exact execute_shiftByOne hop (by rw [hsmall (by omega) (by omega), h2])
  | case5 hop h0 =>
    exact hleft hop h0 (by decide) (by decide) (congrArg some (add_zero _))
  | case7 hop h0 => exact hzero (by rw [hop]; rfl) h0 (by rw [hop]; simp [exactResult, bitwise64])
  | case8 hop _ hmask =>
    exact execute_of_mask h (hcompared.trans hmask) (by rw [hop]; rfl)
      (fun _ _ => BitVec.setWidth_and) (by rw [hop]; exact fun _ _ => rfl)
      fun _ => BitVec.and_allOnes.trans ofInt_low
  | case10 hop h0 =>
    exact hleft hop h0 (by decide) (by decide)
      (congrArg some (bitwise64_zero_right (isInt64_leftValue i) fun _ => BitVec.or_zero))
  | case11 hop _ hmask =>
    exact execute_of_mask h (hcompared.trans hmask) (by rw [hop]; rfl)
      (fun _ _ => BitVec.setWidth_or) (by rw [hop]; exact fun _ _ => rfl)
      fun hones => BitVec.or_allOnes.trans hones.symm
  | case13 hop h0 =>
    exact hleft hop h0 (by decide) (by decide)
      (congrArg some (bitwise64_zero_right (isInt64_leftValue i) fun _ => BitVec.xor_zero))
  | case14 hop _ hmask =>
    have hunary : i.makeUnary .bitNot = .unary .bitNot i.left := by
      unfold makeUnary
      rcases representation_of_mask h (hcompared.trans hmask) with hrep | hrep <;> rw [hrep]
    rw [hunary]
    refine execute_of_mask h (hcompared.trans hmask) (by rw [hop]; rfl)
      (fun _ _ => BitVec.setWidth_xor) (by rw [hop]; exact fun _ _ => rfl) fun _ => ?_
    rw [BitVec.xor_allOnes, not_ofInt]
    rfl
  | case16 hop h0 =>
    exact hleft hop h0 (by decide) (by decide) (congrArg some (sub_zero _))
  | case18 hop h1 =>
    exact hleft hop h1 (by decide) (by decide) (by simp [exactResult])
  | case19 hop _ hneg =>
    refine execute_negate h hop ?_
    rw [rightValue_of_compared h (by rw [hop]; rfl) hcompared, hneg,
      low_of_holds (division_class h (.inl hop)).2]
  | case21 hop hone =>
    have hr : i.rightValue t ρ = rhs := by
      rcases hone with h1 | hneg
      · exact hsmall (by omega) (by omega)
      · rw [rightValue_of_compared h (by rw [hop]; rfl) hcompared, hneg,
          low_of_holds (division_class h (.inr hop)).2]
    rw [execute_of_tryCreate hzeroHolds]
    refine execute_of_holds hzeroHolds ?_ (refusesCount_of_not_shift (by rw [hop]; rfl))
    rw [hop, hr]
    rcases hone with rfl | rfl <;> simp [exactResult]
  | case23 hop h64 =>
    have hcount' := hcount (by rw [hop]; rfl)
    have hpow : (2 : ℤ) ^ 64 ≤ 2 ^ rhs.toNat := pow_le_pow_right₀ (by norm_num) (by omega)
    have he : exactResult i.opKind (i.leftValue t ρ) (i.rightValue t ρ) = some 0 := by
      rw [hcount'.2, hop, exactResult, if_neg (by omega), ediv_eq_zero_of_lt (by omega) (by omega)]
      rfl
    rw [execute_of_tryCreate hzeroHolds, execute_of_result he (hlarge (.inr hop) (by omega)),
      low_of_holds hzeroHolds]
  | case24 hop _ h0 =>
    have hword : wrap64 (i.leftValue t ρ % 2 ^ 64) = i.leftValue t ρ := by
      have hbmod := emod_bmod (x := i.leftValue t ρ) (n := 2 ^ 64)
      exact hbmod.trans (wrap64_of_isInt64 (isInt64_leftValue i))
    exact hleft hop h0 (by decide) (fun _ => rfl) (by simpa [exactResult] using hword)
  | case25 hop _ _ hneg | case28 hop _ hneg =>
    have hshift : isShift i.opKind = true := by rw [hop]; rfl
    exact execute_negative hshift (by rwa [hval, (hcount hshift).1])
  | case27 hop h0 | case30 hop h0 =>
    exact hleft hop h0 (by decide) (fun _ => rfl) (by simp [exactResult])
  | case31 hop resultBits _ hbits =>
    have hc := (hcount (by rw [hop]; rfl)).1
    rw [execute_of_tryCreate hzeroHolds]
    rcases lt_or_ge c 64 with hlt | h64
    · have hge := hbits.resolve_left (by omega)
      exact execute_shl_truncating h hop hright (by rw [hc]; exact hge.1) hlt hge.2
    · have hge := bits_le (t := t) i.representation
      obtain ⟨e, he, hlow⟩ := exists_shl_result (ρ := ρ) hop hright (by omega)
      rw [execute_of_result he (hlarge (.inl hop) h64), hlow]
  | case32 hop resultBits h0 hbits hfails =>
    have hshift : isShift i.opKind = true := by rw [hop]; rfl
    have hc := (hcount hshift).1
    rcases hfails with hneg | ⟨hge, htrunc⟩
    · exact execute_negative hshift (by rwa [hval, hc])
    · exact execute_shl_deoptimize h hop hright (by rw [hc]; exact hge) (by simpa using htrunc)
  | _ => rfl

end Special

/-- An operation that overfolds is replaced by a constant. -/
theorem exists_value_of_overfolds (h : i.WellFormed t ρ) (hover : i.Overfolds t ρ) :
    ∃ v, (i.canonicalize t).execute t ρ i.representation = .value v := by
  unfold canonicalize
  cases hfold : i.foldedConstant t with
  | some v => exact ⟨v, execute_of_tryCreate (holds_foldedConstant h hfold)⟩
  | none =>
    rcases hover.2 with ⟨e, hfolds⟩ | ⟨hop, c, hright, h64⟩
    · rw [(foldedConstant_iff h).mpr ⟨e, hfolds, rfl⟩] at hfold
      cases hfold
    have hshift : isShift i.opKind = true := by rcases hop with hop | hop <;> rw [hop] <;> rfl
    have hself : i.commuteConstant = i := by
      rcases commuteConstant_cases i with heq | ⟨-, hcomm, -⟩
      · exact heq
      · rw [isShift_of_isCommutative hcomm] at hshift
        cases hshift
    have hzero : i.simplify t c = i.tryCreateConstantReplacementFor t 0 := by
      unfold simplify
      rcases hop with hop | hop <;> rw [hop] <;> simp [h64]
      omega
    dsimp only
    rw [hself, hright]
    dsimp only
    rw [comparedConstant_of_not_arithmetic i (.inl hshift), hzero]
    exact ⟨0, execute_of_tryCreate (holds_small le_rfl (by norm_num))⟩

/-- **`BinaryIntegerOpInstr::Canonicalize`** keeps the outcome of an operation, its value, its
deoptimization or its exception, just when the operation does not overfold. -/
theorem canonicalize_execute_iff (t : Target) (ρ : ℕ → ℤ) (i : Instr) (h : i.WellFormed t ρ) :
    (i.canonicalize t).execute t ρ i.representation = i.execute t ρ ↔ ¬ i.Overfolds t ρ := by
  constructor
  · intro heq hover
    obtain ⟨v, hv⟩ := exists_value_of_overfolds h hover
    rw [heq, hover.1] at hv
    cases hv
  intro hover
  unfold canonicalize
  cases hfold : i.foldedConstant t with
  | some v =>
    rw [execute_foldedConstant h hfold hover]
    exact execute_of_tryCreate (holds_foldedConstant h hfold)
  | none =>
    obtain ⟨hwf, hrep, hexec⟩ := commuteConstant_spec h
    dsimp only
    rw [← hexec, ← hrep]
    cases hright : i.commuteConstant.right.toIntegerConstant t with
    | none => rfl
    | some c =>
      refine (execute_simplify hwf hright rfl fun hop h64 hdeopt => ?_).symm
      -- A shift is not commuted, and would overfold.
      rcases commuteConstant_cases i with heq | ⟨heq, hcomm, -⟩
      · rw [heq] at hop hright hdeopt
        exact hover ⟨hdeopt, .inr ⟨hop, c, hright, h64⟩⟩
      · rw [heq] at hop
        rcases hop with hop | hop <;> simp only at hop <;> rw [hop] at hcomm <;>
          exact absurd hcomm (by decide)

/-- The 64-bit target. -/
def target64 : Target := ⟨62, .inr rfl⟩

/-- A checked Smi multiplication by a constant. -/
def product (left : Operand) (c : ℤ) : Instr where
  representation := .tagged
  opKind := .mul
  left := left
  right := .constant c
  canOverflow := true
  isTruncating := false
  isSpeculative := true
  rightRange := none

/-- The products of the examples are well formed. -/
theorem product_wellFormed {ρ : ℕ → ℤ} {left : Operand} {c : ℤ} (hc : Holds target64 c .tagged)
    (hleft : ∀ a, left = .constant a → Holds target64 a .tagged) :
    (product left c).WellFormed target64 ρ where
  supported := rfl
  truncating := nofun
  unboxed := nofun
  left_holds := hleft
  right_int64 := isInt64_of_holds hc
  right_holds := fun _ => hc

/-- The product of the largest Smi and 2 deoptimizes, as the shift that replaces it does. -/
theorem canonicalize_execute_iff_double :
    ((product (.other 0) 2).canonicalize target64).execute target64 (fun _ => 2 ^ 62 - 1) .tagged =
      (product (.other 0) 2).execute target64 fun _ => 2 ^ 62 - 1 := by
  refine (canonicalize_execute_iff target64 (fun _ => 2 ^ 62 - 1) (product (.other 0) 2)
    (product_wellFormed (by decide) nofun)).mpr ?_
  rintro ⟨-, ⟨e, a, b, hleft, -⟩ | ⟨hop | hop, -⟩⟩
  · cases hleft
  · cases hop
  · cases hop

/-- **The outcome is not always preserved.** `2^61 * 8` deoptimizes but is folded to 0, its value in
64 bits. -/
theorem canonicalize_changes_outcome :
    (product (.constant (2 ^ 61)) 8).WellFormed target64 (fun _ => 0) ∧
      (product (.constant (2 ^ 61)) 8).execute target64 (fun _ => 0) = .deoptimizes ∧
      ((product (.constant (2 ^ 61)) 8).canonicalize target64).execute target64 (fun _ => 0) .tagged
        = .value 0 := by
  refine ⟨product_wellFormed (by decide) ?_, by decide, by decide⟩
  rintro a ⟨⟩
  decide

end Instr

end DartVm.BinaryIntegerOp
