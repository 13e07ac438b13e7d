import DartVm.Loops.Execution

/-! # What limits mean

Limits are pairs of invariants; `Within env l v` says that they bound the integer `v`.  By
`safelyAdjust_within` whatever lies between the adjusted bounds is representable and within the
limits that `SafelyAdjust` returns.  Array lengths enter through `LengthsNonneg`.

* `Within`: limits bound an integer.
* `safelyAdjust_within`: adjusting limits is safe. -/

namespace DartVm.Loops

open Option Invariant

variable {F : Function} {env : DefId → Int64} {x y z diff : Int64}

/-- Checked arithmetic only returns exact results. -/
theorem Arith.checked_result {e : ℤ} (h : Arith.checked.result e x = some z) :
    IsInt64 e ∧ z = x := by
  simp only [result] at h
  split_ifs at h with hfits
  exact ⟨hfits, (some.inj h).symm⟩

/-- A checked sum is exact. -/
theorem Arith.checked_add (h : Arith.checked.add x y = some z) :
    z = x + y ∧ z.toInt = x.toInt + y.toInt := by
  obtain ⟨hfits, rfl⟩ := checked_result h
  exact ⟨rfl, toInt_add_of_isInt64 hfits⟩

/-- A checked difference is exact. -/
theorem Arith.checked_sub (h : Arith.checked.sub x y = some z) :
    z = x - y ∧ z.toInt = x.toInt - y.toInt := by
  obtain ⟨hfits, rfl⟩ := checked_result h
  exact ⟨rfl, toInt_sub_of_isInt64 hfits⟩

/-! ## Differences -/

/-- A computed difference is the difference of the values, up to wrap-around. -/
theorem Invariant.denote_of_canComputeDifferenceWith {x other : Invariant}
    (h : x.canComputeDifferenceWith other = some diff) :
    other.denote env = x.denote env + diff := by
  unfold canComputeDifferenceWith at h
  split_ifs at h with hsame
  cases h
  simp only [denote, hsame.1, hsame.2]
  grind

/-- Only an invariant has a difference with an invariant. -/
theorem InductionVar.invariant_of_canComputeDifferenceWith {x : InductionVar} {y : Invariant}
    (h : x.canComputeDifferenceWith (.invariant y) = some diff) :
    ∃ i, x = .invariant i ∧ i.canComputeDifferenceWith y = some diff := by
  cases x with
  | invariant i => exact ⟨i, rfl, h⟩
  | linear => cases h
  | wrapAround => cases h
  | periodic => cases h

/-- Linear inductions with a difference have equal strides, and a difference of initial values. -/
theorem InductionVar.linear_of_canComputeDifferenceWith {initial next : Invariant}
    {y : InductionVar}
    (h : (linear initial next).canComputeDifferenceWith y = some diff) :
    ∃ initial' next', y = .linear initial' next' ∧ next.isEqual next' ∧
      initial.canComputeDifferenceWith initial' = some diff := by
  cases y with
  | linear initial' next' =>
    simp only [canComputeDifferenceWith] at h
    split_ifs at h with heq
    exact ⟨initial', next', rfl, heq, h⟩
  | invariant => cases h
  | wrapAround => cases h
  | periodic => cases h

/-! ## Array lengths -/

/-- The array length that `x` is an offset of, if any, is not negative. -/
def LengthsNonneg (F : Function) (env : DefId → Int64) (x : Invariant) : Prop :=
  ∀ d, x.def_ = some d → F.isArrayLength d → 0 ≤ (env d).toInt

/-- An array length with an offset. -/
theorem denote_of_isArrayLengthOffset {x : Invariant} (h : F.isArrayLengthOffset x)
    (hlen : LengthsNonneg F env x) : ∃ len : Int64, 0 ≤ len.toInt ∧
      x.denote env = x.offset + len := by
  simp only [Function.isArrayLengthOffset, Bool.and_eq_true, beq_iff_eq] at h
  obtain ⟨hmult, hdef⟩ := h
  rw [any_eq_true] at hdef
  obtain ⟨d, hd, hlength⟩ := hdef
  have hd' : x.def_ = some d := by simpa using hd
  refine ⟨env d, hlen d hd' hlength, ?_⟩
  simp [denote, hmult, hd']

/-- An offset that is not positive does not overflow when added to a length. -/
theorem toInt_add_of_nonpos {x len : Int64} (hx : x.toInt ≤ 0) (hlen : 0 ≤ len.toInt) :
    (x + len).toInt = x.toInt + len.toInt := by
  have h1 := isInt64_iff.mp (isInt64_of_int64 x)
  have h2 := isInt64_iff.mp (isInt64_of_int64 len)
  exact toInt_add_of_isInt64 (isInt64_iff.mpr (by omega))

/-! ## Limits -/

/-- The limits bound the integer `v`. -/
def Within (env : DefId → Int64) (l : Limits) (v : ℤ) : Prop :=
  (l.1.denote env).toInt ≤ v ∧ v ≤ (l.2.denote env).toInt

section SafelyAdjust

variable {lower upper : Invariant} {lo uo : Int64} {l : Limits}

/-- A proper range has a representable upper bound, of one of two shapes. -/
theorem isProperRange_cases {lower c : Int64}
    (h : isProperRange .checked F lower lo c upper uo = some true) :
    ∃ u, Arith.checked.add upper.offset uo = some u ∧
      (upper.isConstant ∨ F.isArrayLengthOffset upper ∧ u ≤ 0) := by
  unfold isProperRange at h
  split_ifs at h with hconst hlen
  · obtain ⟨u, hu, -⟩ := bind_eq_some_iff.mp h
    exact ⟨u, hu, .inl hconst⟩
  · obtain ⟨u, hu, hle⟩ := bind_eq_some_iff.mp h
    simp only [pure_def, Option.some.injEq, Bool.and_eq_true, decide_eq_true_eq] at hle
    exact ⟨u, hu, .inr ⟨hlen, hle.2⟩⟩
  · cases h

/-- What a successful `SafelyAdjust` has checked and what it returns. -/
theorem safelyAdjust_cases (h : safelyAdjust .checked F lower lo upper uo = some (some l)) :
    lower.isConstant ∧
      (∃ c, Arith.checked.add lower.offset lo = some c ∧ l.1.offset = c ∧ l.1.mult = 0 ∧
        (l.1.def_ = lower.def_ ∨ l.1.def_ = none)) ∧
      (∃ u, Arith.checked.add upper.offset uo = some u ∧ l.2.offset = u ∧ l.2.mult = upper.mult ∧
        l.2.def_ = upper.def_ ∧
        (upper.isConstant ∨ F.isArrayLengthOffset upper ∧ u ≤ 0)) := by
  unfold safelyAdjust at h
  split at h
  case isFalse => cases h
  case isTrue hlower =>
    have hmult : lower.mult = 0 := by simpa [isConstant] using hlower
    simp only [bind_eq_bind, bind_eq_some_iff, pure_def, Option.some.injEq] at h
    obtain ⟨c, hc, success, hsuccess, hres⟩ := h
    cases success with
    | false => cases hres
    | true =>
      rw [if_pos rfl, Option.some.injEq] at hres
      obtain ⟨u, hu, hshape⟩ := isProperRange_cases hsuccess
      subst hres
      refine ⟨hlower, ⟨c, hc, ?_⟩, u, hu, ?_⟩
      · by_cases hlo : lo = 0
        · simp [hlo, (Arith.checked_add hc).1, hmult]
        · simp [hlo, const]
      · have hu' := (Arith.checked_add hu).1
        by_cases huo : uo = 0
        · have hoff : upper.offset = u := by simp [hu', huo]
          simpa [huo, hoff] using hshape
        · simpa [huo, hu'] using hshape

/-- **Adjusting is safe**: an integer between the adjusted bounds is representable and within the
limits that `SafelyAdjust` returns. -/
theorem safelyAdjust_within (h : safelyAdjust .checked F lower lo upper uo = some (some l))
    (hlen : LengthsNonneg F env upper) {v : ℤ} (h1 : (lower.denote env).toInt + lo.toInt ≤ v)
    (h2 : v ≤ (upper.denote env).toInt + uo.toInt) : IsInt64 v ∧ Within env l v := by
  obtain ⟨hlower, ⟨c, hc, hcoff, hcm, -⟩, u, hu, huoff, humult, hudef, hshape⟩ :=
    safelyAdjust_cases h
  have hlconst : l.1.isConstant := by simp [isConstant, hcm]
  have hlo : (l.1.denote env).toInt ≤ v := by
    rw [denote_of_isConstant hlconst, hcoff, (Arith.checked_add hc).2]
    rwa [denote_of_isConstant hlower] at h1
  have hup : v ≤ (l.2.denote env).toInt := by
    rcases hshape with hconst | ⟨harr, hle⟩
    · have huconst : l.2.isConstant := by simpa [isConstant, humult] using hconst
      rw [denote_of_isConstant huconst, huoff, (Arith.checked_add hu).2]
      rwa [denote_of_isConstant hconst] at h2
    -- The length itself is not negative, so offsets can wrap upwards only, and those of the
    -- result do not wrap at all.
    have hden : l.2.denote env - l.2.offset = upper.denote env - upper.offset := by
      simp only [denote, humult, hudef]
      grind
    obtain ⟨len, hlen0, hupper⟩ := denote_of_isArrayLengthOffset harr hlen
    have hl2 : l.2.denote env = l.2.offset + len := by grind
    have hle' : u.toInt ≤ 0 := Int64.le_iff_toInt_le.mp hle
    rw [hl2, huoff, toInt_add_of_nonpos hle' hlen0, (Arith.checked_add hu).2]
    rw [hupper] at h2
    have := toInt_add_le (x := upper.offset) hlen0
    omega
  have hmin := isInt64_of_int64 (l.1.denote env)
  have hmax := isInt64_of_int64 (l.2.denote env)
  exact ⟨⟨hmin.1.trans hlo, hup.trans hmax.2⟩, hlo, hup⟩

end SafelyAdjust

end DartVm.Loops
