import Mathlib.Algebra.Order.Ring.Abs
import DartVm.RangeAnalysis.BinaryOp

/-! # Soundness of `Range::BinaryOp`

If the operands lie in their ranges and the operation is defined, its wrap-around result lies in the
range that `Range::BinaryOp` computes (`Range.binaryOp_sound`).  An operation that cannot bound its
result answers with an infinite boundary, which the constructor of `Range` turns into the full
64-bit range.

* `Between`: an operand lies between the constant ends of its range.
* `add_sound` to `and_sound`: one operation each.
* `Range.binaryOp_sound`: all operations. -/

namespace DartVm

open RangeBoundary Int

variable {t : Target} {ρ : Valuation} {defn : Definition}

/-! ## Membership -/

namespace RangeBoundary

/-- A finite boundary has a value. -/
theorem exists_value {b : RangeBoundary} (hv : b.Valid t ρ) (hfin : b.isInfinity = false) :
    ∃ v, IsInt64 v ∧ ∀ (d : End) x, d.Admits ρ b x ↔ d.Le v x := by
  cases b with
  | unknown => exact absurd hv (by simp [Valid])
  | negativeInfinity | positiveInfinity => simp [isInfinity] at hfin
  | constant v => exact ⟨v, hv, fun d _ => by cases d <;> rfl⟩
  | symbol defn offset =>
    obtain ⟨hoff, hd⟩ := hv
    cases defn with
    | mk index info range => exact ⟨_, isInt64_symbol hd.1 hoff, fun d _ => by cases d <;> rfl⟩

/-- `FromDefinition` builds a valid boundary for the value of the definition plus the offset, also
for a constant. -/
theorem fromDefinition_spec {offs : ℤ} (hd : defn.Valid t ρ (ρ defn))
    (hoff : isValidOffset t offs = true) :
    (fromDefinition defn offs).Valid t ρ ∧
      ∀ (d : End) x, d.Admits ρ (fromDefinition defn offs) x ↔ d.Le (ρ defn + offs) x := by
  unfold fromDefinition
  cases hc : defn.info.smiConstant with
  | none => exact ⟨⟨hoff, hd⟩, fun d _ => by cases d <;> rfl⟩
  | some v =>
    cases defn with
    | mk index info range =>
      rw [← hd.2.1 v hc]
      exact ⟨isInt64_symbol hd.1 hoff, fun d _ => by cases d <;> rfl⟩

end RangeBoundary

namespace Range

variable {left right r : Range} {a b x v : ℤ} {min max : RangeBoundary}

/-- `x` lies in the range. -/
def Contains (ρ : Valuation) (r : Range) (x : ℤ) : Prop := r.min.Below ρ x ∧ r.max.Above ρ x

/-- Both boundaries are valid. -/
def Valid (t : Target) (ρ : Valuation) (r : Range) : Prop := r.min.Valid t ρ ∧ r.max.Valid t ρ

/-- **Membership in a constructed range**: the boundaries must admit a value only if neither is
infinite. -/
theorem make_contains (hv : IsInt64 v)
    (h : min.isInfinity = false → max.isInfinity = false → min.Below ρ v ∧ max.Above ρ v) :
    (make min max).Contains ρ v := by
  unfold make
  by_cases hinf : (min.isInfinity || max.isInfinity) = true
  · rw [if_pos hinf]
    exact hv
  · rw [if_neg hinf]
    rw [Bool.not_eq_true, Bool.or_eq_false_iff] at hinf
    exact h hinf.1 hinf.2

/-- A range with constant ends. -/
theorem make_constant_contains {lo hi : ℤ} (hv : IsInt64 v) (hlo : lo ≤ v) (hhi : v ≤ hi) :
    (make (.constant lo) (.constant hi)).Contains ρ v :=
  make_contains hv fun _ _ => ⟨hlo, hhi⟩

/-! ## The constant bounds of a range -/

variable {c : ℤ}

/-- A 64-bit constant is not changed by clamping to 64 bits. -/
theorem clamp_int64_constant (hc : IsInt64 c) :
    ((RangeBoundary.constant c).clamp t .int64).constantValue = c := by
  unfold IsInt64 at hc
  rw [clamp_constant, constantValue]
  simp only [minConstant, maxConstant]
  omega

/-- **`ConstantMin`** is a 64-bit lower bound, and the greatest one that `OnlyGreaterThanOrEqualTo`
accepts. -/
theorem constantMin_spec (hr : r.Valid t ρ) : IsInt64 (r.constantMin t) ∧
    (∀ x, IsInt64 x → r.Contains ρ x → r.constantMin t ≤ x) ∧
    ∀ val, r.onlyGreaterThanOrEqualTo t val = true → val ≤ r.constantMin t := by
  unfold constantMin onlyGreaterThanOrEqualTo
  rcases bound_spec .min r.min hr.1 with h | ⟨c, hc, hc64, hle⟩
  · rw [show r.min.lowerBound t = _ from h]
    exact ⟨show IsInt64 int64Min by decide, fun x hx _ => hx.1, fun _ h => by cases h⟩
  · rw [show r.min.lowerBound t = _ from hc, clamp_int64_constant hc64]
    exact ⟨hc64, fun x _ hx => hle x hx.1, fun _ h => of_decide_eq_true h⟩

/-- **`ConstantMax`** is a 64-bit upper bound of the range. -/
theorem constantMax_spec (hr : r.Valid t ρ) : IsInt64 (r.constantMax t) ∧
    (∀ x, IsInt64 x → r.Contains ρ x → x ≤ r.constantMax t) ∧
    ∀ val, r.onlyLessThanOrEqualTo t val = true → r.constantMax t ≤ val := by
  unfold constantMax onlyLessThanOrEqualTo
  rcases bound_spec .max r.max hr.2 with h | ⟨c, hc, hc64, hle⟩
  · rw [show r.max.upperBound t = _ from h]
    exact ⟨show IsInt64 int64Max by decide, fun x hx _ => hx.2, fun _ h => by cases h⟩
  · rw [show r.max.upperBound t = _ from hc, clamp_int64_constant hc64]
    exact ⟨hc64, fun x _ hx => hle x hx.2, fun _ h => of_decide_eq_true h⟩

/-- What `OnlyGreaterThanOrEqualTo` says about the constant minimum. -/
theorem le_constantMin_of_only (hr : r.Valid t ρ) {val : ℤ}
    (h : r.onlyGreaterThanOrEqualTo t val = true) : val ≤ r.constantMin t :=
  (constantMin_spec hr).2.2 val h

/-- **The constant interval of an operand**: 64-bit constants around an operand `x` of a range. -/
structure Between (t : Target) (r : Range) (x : ℤ) : Prop where
  lo : IsInt64 (r.constantMin t)
  hi : IsInt64 (r.constantMax t)
  le : r.constantMin t ≤ x
  ge : x ≤ r.constantMax t

/-- A value of a range lies between its constant ends. -/
theorem between_of_contains (hr : r.Valid t ρ) (hx : IsInt64 x) (hc : r.Contains ρ x) :
    Between t r x :=
  ⟨(constantMin_spec hr).1, (constantMax_spec hr).1, (constantMin_spec hr).2.1 x hx hc,
    (constantMax_spec hr).2.1 x hx hc⟩

/-- Values between constant ends are 64-bit integers. -/
theorem Between.isInt64 (h : Between t r x) : IsInt64 x :=
  ⟨h.lo.1.trans h.le, h.ge.trans h.hi.2⟩

/-! ## Addition and subtraction -/

variable {d : End} {p q res : RangeBoundary} {leftDefn : Option Definition} {count : ℤ}

/-- A valid boundary of `x` at the end `d`. -/
abbrev Bounds (t : Target) (ρ : Valuation) (d : End) (x : ℤ) (p : RangeBoundary) : Prop :=
  p.Valid t ρ ∧ d.Admits ρ p x

/-- A boundary of `x` that may be infinite, which then says nothing. -/
abbrev FiniteBounds (t : Target) (ρ : Valuation) (d : End) (x : ℤ) (p : RangeBoundary) : Prop :=
  p.isInfinity = false → Bounds t ρ d x p

/-- A symbolic sum admits what its symbol and its offsets allow. -/
theorem symbolPlus_spec {offset value : ℤ} (hd : defn.Valid t ρ (ρ defn))
    (h : symbolPlus t defn offset value = some res) :
    res.Valid t ρ ∧ ∀ (d : End) x, d.Admits ρ res x ↔ d.Le (ρ defn + (offset + value)) x := by
  unfold symbolPlus at h
  split_ifs at h with hover hoff
  cases h
  exact fromDefinition_spec hd (by simpa using hoff)

section

variable (hp : p.Valid t ρ) (hq : q.Valid t ρ) (hpa : d.Admits ρ p a)
  (hqb : d.opposite.Admits ρ q b)
include hp hq hpa hqb

omit hqb in
/-- A symbolic sum bounds the sum where its operands bound the summands. -/
theorem symbolicAdd_spec (hqb : d.Admits ρ q b) (h : symbolicAdd t p q = some res) :
    Bounds t ρ d (a + b) res := by
  unfold symbolicAdd at h
  split at h
  · obtain ⟨hv, hiff⟩ := symbolPlus_spec hp.2 h
    refine ⟨hv, (hiff d _).mpr ?_⟩
    cases d <;> simp only [End.Admits, End.Le, Below, Above] at * <;> omega
  · obtain ⟨hv, hiff⟩ := symbolPlus_spec hq.2 h
    refine ⟨hv, (hiff d _).mpr ?_⟩
    cases d <;> simp only [End.Admits, End.Le, Below, Above] at * <;> omega
  · cases h

omit hq in
/-- A symbolic difference, with the second operand bounded from the other side. -/
theorem symbolicSub_spec (h : symbolicSub t p q = some res) : Bounds t ρ d (a - b) res := by
  unfold symbolicSub at h
  split at h
  · split_ifs at h with hover hoff
    cases h
    obtain ⟨hv, hiff⟩ := fromDefinition_spec hp.2 (by simpa using hoff)
    refine ⟨hv, (hiff d _).mpr ?_⟩
    cases d <;> simp only [End.opposite, End.Admits, End.Le, Below, Above] at * <;> omega
  · cases h

omit hp hq hpa hqb in
/-- The boundary that stands for the left operand bounds it when that is an array length. -/
theorem leftBoundary_spec {bd : RangeBoundary} (hbd : bd.Valid t ρ) (ha : d.Admits ρ bd a)
    (hdefn : ∀ d ∈ leftDefn, d.info.isArrayLength = true → a = ρ d ∧ d.Valid t ρ (ρ d)) :
    Bounds t ρ d a (leftBoundary leftDefn bd) := by
  unfold leftBoundary
  cases leftDefn with
  | none => exact ⟨hbd, ha⟩
  | some defn =>
    dsimp only
    split_ifs with hlen
    · obtain ⟨rfl, hd⟩ := hdefn defn rfl hlen
      have hzero : isValidOffset t 0 = true := by
        have := t.smi_bounds
        rw [isValidOffset_iff]
        unfold int64Min int64Max
        constructor <;> omega
      obtain ⟨hv, hiff⟩ := fromDefinition_spec hd hzero
      refine ⟨hv, (hiff d _).mpr ?_⟩
      cases d <;> simp [End.Le]
    · exact ⟨hbd, ha⟩

omit hqb in
/-- The constant fallback of a sum: an overflow is reported as an infinite boundary. -/
theorem add_bound_spec (hqb : d.Admits ρ q b) :
    FiniteBounds t ρ d (a + b) (.add (d.bound t p) (d.bound t q) d.infinity) := by
  have hinf : d.infinity.isInfinity = true := by cases d <;> rfl
  generalize d.infinity = overflow at hinf ⊢
  generalize hc : d.bound t p = P
  generalize he : d.bound t q = Q
  fun_cases RangeBoundary.add P Q overflow with
  | case2 c e _ hover =>
    obtain ⟨hc64, hle⟩ := bound_constant hp hc
    have h1 := hle a hpa
    have h2 := (bound_constant hq he).2 b hqb
    refine fun _ => ⟨(willAddOverflow_eq_false hc64).mp (Bool.eq_false_iff.mpr hover), ?_⟩
    cases d <;> simp only [End.Admits, End.Le, Below, Above] at * <;> omega
  | _ => simp [hinf]

/-- Subtracting the opposite bound gives a bound of the difference. -/
theorem sub_bound_spec :
    FiniteBounds t ρ d (a - b) (.sub (d.bound t p) (d.opposite.bound t q) d.infinity) := by
  have hinf : d.infinity.isInfinity = true := by cases d <;> rfl
  generalize d.infinity = overflow at hinf ⊢
  generalize hc : d.bound t p = P
  generalize he : d.opposite.bound t q = Q
  fun_cases RangeBoundary.sub P Q overflow with
  | case2 c e _ hover =>
    obtain ⟨hc64, hle⟩ := bound_constant hp hc
    have h1 := hle a hpa
    have h2 := (bound_constant hq he).2 b hqb
    refine fun _ => ⟨(willSubOverflow_eq_false hc64).mp (Bool.eq_false_iff.mpr hover), ?_⟩
    cases d <;> simp only [End.opposite, End.Admits, End.Le, Below, Above] at * <;> omega
  | _ => simp [hinf]

end

/-- Boundaries that hold for the exact result hold for the wrapped one: two finite boundaries keep
it inside 64 bits. -/
theorem make_contains_wrap {exact : ℤ}
    (hmin : FiniteBounds t ρ .min exact min) (hmax : FiniteBounds t ρ .max exact max) :
    (make min max).Contains ρ (wrap64 exact) := by
  refine make_contains (isInt64_wrap64 _) fun hmin' hmax' => ?_
  obtain ⟨hv1, h1⟩ := hmin hmin'
  obtain ⟨hv2, h2⟩ := hmax hmax'
  obtain ⟨lo, hlo, hbelow⟩ := exists_value hv1 hmin'
  obtain ⟨hi, hhi, habove⟩ := exists_value hv2 hmax'
  have hexact : IsInt64 exact :=
    ⟨hlo.1.trans ((hbelow .min _).mp h1), le_trans ((habove .max _).mp h2) hhi.2⟩
  rw [wrap64_of_isInt64 hexact]
  exact ⟨h1, h2⟩

/-- The symbolic result, or else the constant one, is a bound. -/
theorem getD_spec {result : Option RangeBoundary}
    (hsome : ∀ res, result = some res → Bounds t ρ d x res) (hnone : FiniteBounds t ρ d x p) :
    FiniteBounds t ρ d x (result.getD p) := by
  intro hfin
  cases result with
  | none => exact hnone hfin
  | some res => exact hsome res rfl

section Sound

variable (hl : left.Valid t ρ) (hr : right.Valid t ρ) (ha : left.Contains ρ a)
  (hb : right.Contains ρ b)
  (hdefn : ∀ d ∈ leftDefn, d.info.isArrayLength = true → a = ρ d ∧ d.Valid t ρ (ρ d))

include hl hr ha hb hdefn

/-- **Addition** stays in its range. -/
theorem add_sound : (make (add t left right leftDefn).1 (add t left right leftDefn).2).Contains ρ
    (wrap64 (a + b)) := by
  obtain ⟨hv1, ha1⟩ := leftBoundary_spec (d := .min) hl.1 ha.1 hdefn
  obtain ⟨hv2, ha2⟩ := leftBoundary_spec (d := .max) hl.2 ha.2 hdefn
  refine make_contains_wrap (t := t) (getD_spec (fun res hs => ?_) ?_)
    (getD_spec (fun res hs => ?_) ?_)
  · exact symbolicAdd_spec hv1 hr.1 ha1 hb.1 hs
  · exact add_bound_spec (d := .min) hl.1 hr.1 ha.1 hb.1
  · exact symbolicAdd_spec hv2 hr.2 ha2 hb.2 hs
  · rw [add_comm]
    exact add_bound_spec (d := .max) hr.2 hl.2 hb.2 ha.2

/-- **Subtraction** stays in its range. -/
theorem sub_sound : (make (sub t left right leftDefn).1 (sub t left right leftDefn).2).Contains ρ
    (wrap64 (a - b)) := by
  obtain ⟨hv1, ha1⟩ := leftBoundary_spec (d := .min) hl.1 ha.1 hdefn
  obtain ⟨hv2, ha2⟩ := leftBoundary_spec (d := .max) hl.2 ha.2 hdefn
  refine make_contains_wrap (t := t) (getD_spec (fun res hs => ?_) ?_)
    (getD_spec (fun res hs => ?_) ?_)
  · exact symbolicSub_spec hv1 ha1 hb.2 hs
  · exact sub_bound_spec (d := .min) hl.1 hr.2 ha.1 hb.2
  · exact symbolicSub_spec hv2 ha2 hb.1 hs
  · exact sub_bound_spec (d := .max) hl.2 hr.1 ha.2 hb.1

end Sound

/-! ## Multiplication, division and remainder -/

/-- The absolute value, where it exists. -/
theorem absWithSaturation_of_ne (h : x ≠ int64Min) : absWithSaturation x = |x| := by
  unfold absWithSaturation
  split
  · next hneg => rw [abs_of_neg hneg]
  · next hneg => rw [abs_of_nonneg (by omega)]

/-- The smallest integer has no absolute value and is given the largest one. -/
theorem absWithSaturation_min : absWithSaturation int64Min = int64Max := by decide

section

variable (h : Between t r x) (hmin : r.constantMin t ≠ int64Min)
include h hmin

/-- A range that begins above the smallest integer does not end there. -/
theorem Between.constantMax_ne : r.constantMax t ≠ int64Min := by
  obtain ⟨hlo, -, hle, hge⟩ := h
  have := hlo.1
  omega

/-- Without saturation the greatest absolute value bounds the operand. -/
theorem Between.abs_le : |x| ≤ r.constantAbsMax t := by
  rw [constantAbsMax, absWithSaturation_of_ne hmin, absWithSaturation_of_ne (h.constantMax_ne hmin)]
  exact abs_le_max_abs_abs h.le h.ge

/-- Without saturation the least absolute value of a range of one sign bounds the operand. -/
theorem Between.le_abs (hsign : 0 ≤ r.constantMin t ∨ r.constantMax t ≤ 0) :
    0 ≤ r.constantAbsMin t ∧ r.constantAbsMin t ≤ |x| := by
  rw [constantAbsMin, absWithSaturation_of_ne hmin, absWithSaturation_of_ne (h.constantMax_ne hmin)]
  refine ⟨le_min (abs_nonneg _) (abs_nonneg _), ?_⟩
  rcases hsign with hs | hs
  · refine min_le_of_left_le ?_
    rw [abs_of_nonneg hs]
    exact h.le.trans (le_abs_self _)
  · refine min_le_of_right_le ?_
    rw [abs_of_nonpos hs]
    exact (neg_le_neg h.ge).trans (neg_le_abs _)

end

/-- A range of small absolute values does not begin at the smallest integer. -/
theorem constantMin_ne_of_absMax_le (h : r.constantAbsMax t ≤ -t.smiMin) :
    r.constantMin t ≠ int64Min := by
  intro heq
  have hle : absWithSaturation (r.constantMin t) ≤ r.constantAbsMax t := le_max_left _ _
  rw [heq, absWithSaturation_min] at hle
  have := t.smi_bounds
  unfold int64Max at hle
  omega

section

variable (hl : left.Valid t ρ) (hr : right.Valid t ρ) (ha : Between t left a)
  (hb : Between t right b)
include hl hr ha hb

omit ha hb in
/-- Operands that have the same sign throughout. -/
theorem sameSign_of_only
    (h : (onlyPositiveOrZero t left right || onlyNegativeOrZero t left right) = true) :
    (0 ≤ left.constantMin t ∧ 0 ≤ right.constantMin t) ∨
      (left.constantMax t ≤ 0 ∧ right.constantMax t ≤ 0) := by
  rw [Bool.or_eq_true, onlyPositiveOrZero, onlyNegativeOrZero, Bool.and_eq_true,
    Bool.and_eq_true] at h
  exact h.imp (fun h => ⟨le_constantMin_of_only hl h.1, le_constantMin_of_only hr h.2⟩)
    (fun h => ⟨(constantMax_spec hl).2.2 _ h.1, (constantMax_spec hr).2.2 _ h.2⟩)

/-- **Multiplication** stays in its range. -/
theorem mul_sound :
    (make (mul t left right).1 (mul t left right).2).Contains ρ (wrap64 (a * b)) := by
  unfold mul
  simp only
  split
  · -- The product of the greatest absolute values stays in 64 bits.
    next hcond =>
    obtain ⟨hL, hR, hquot⟩ := hcond
    have hLmin := constantMin_ne_of_absMax_le hL
    have hRmin := constantMin_ne_of_absMax_le hR
    have haL := ha.abs_le hLmin
    have hbR := hb.abs_le hRmin
    set L := left.constantAbsMax t
    set R := right.constantAbsMax t
    have hL0 : 0 ≤ L := (abs_nonneg a).trans haL
    have hR0 : 0 ≤ R := (abs_nonneg b).trans hbR
    have hprod : L * R ≤ int64Max := by
      rcases hquot with h0 | hq
      · rw [h0, zero_mul]; decide
      rcases hL0.eq_or_lt with h0 | hpos
      · rw [← h0, zero_mul]; decide
      · rw [tdiv_eq_ediv_of_nonneg (by decide)] at hq
        have := (Int.le_ediv_iff_mul_le hpos).mp hq
        rwa [mul_comm] at this
    have habs : |a * b| ≤ L * R := by
      rw [abs_mul]
      exact mul_le_mul haL hbR (abs_nonneg b) hL0
    have hnn := mul_nonneg hL0 hR0
    have hmax64 : IsInt64 (L * R) := ⟨le_trans (by decide) hnn, hprod⟩
    have hneg64 : IsInt64 (-(L * R)) := by
      unfold IsInt64 int64Min int64Max at *
      omega
    have hab := abs_le.mp habs
    rw [wrap64_of_isInt64 hmax64, wrap64_of_isInt64 hneg64]
    split
    · next hsign =>
      have hsame := sameSign_of_only hl hr hsign
      obtain ⟨hlmin0, hlmin⟩ := ha.le_abs hLmin (hsame.imp And.left And.left)
      obtain ⟨hrmin0, hrmin⟩ := hb.le_abs hRmin (hsame.imp And.right And.right)
      have hnonneg : 0 ≤ a * b := by
        have := ha.le; have := ha.ge; have := hb.le; have := hb.ge
        rcases hsame with ⟨h1, h2⟩ | ⟨h1, h2⟩
        · exact mul_nonneg (by omega) (by omega)
        · exact mul_nonneg_of_nonpos_of_nonpos (by omega) (by omega)
      have hlow : left.constantAbsMin t * right.constantAbsMin t ≤ a * b := by
        rw [← abs_of_nonneg hnonneg, abs_mul]
        exact mul_le_mul hlmin hrmin hrmin0 (abs_nonneg a)
      have hmin64 : IsInt64 (left.constantAbsMin t * right.constantAbsMin t) :=
        ⟨le_trans (by decide) (mul_nonneg hlmin0 hrmin0), hlow.trans (hab.2.trans hprod)⟩
      rw [wrap64_of_isInt64 hmin64]
      obtain ⟨h1, h2⟩ := wrap64_mem_of_bounds hmin64 hmax64 hlow hab.2
      exact make_constant_contains (isInt64_wrap64 _) h1 h2
    · obtain ⟨h1, h2⟩ := wrap64_mem_of_bounds hneg64 hmax64 hab.1 hab.2
      exact make_constant_contains (isInt64_wrap64 _) h1 h2
  · split
    · exact make_contains (isInt64_wrap64 _) fun _ hinf => by simp [isInfinity] at hinf
    · exact make_contains (isInt64_wrap64 _) fun hinf _ => by simp [isInfinity] at hinf

omit hl hr ha hb in
/-- A range of non-negative values: the absolute bounds are the bounds themselves. -/
theorem Between.abs_bounds_of_nonneg (h : Between t r x) (h0 : 0 ≤ r.constantMin t) :
    r.constantAbsMin t = r.constantMin t ∧ r.constantAbsMax t = r.constantMax t := by
  have h1 := h.le
  have h2 := h.ge
  have hmin : absWithSaturation (r.constantMin t) = r.constantMin t := by
    rw [absWithSaturation, if_neg (by omega)]
  have hmax : absWithSaturation (r.constantMax t) = r.constantMax t := by
    rw [absWithSaturation, if_neg (by omega)]
  rw [constantAbsMin, constantAbsMax, hmin, hmax]
  exact ⟨min_eq_left (by omega), max_eq_right (by omega)⟩

/-- **Truncating division** stays in its range. -/
theorem truncDiv_sound :
    (make (truncDiv t left right).1 (truncDiv t left right).2).Contains ρ
      (wrap64 (a.tdiv b)) := by
  unfold truncDiv
  split
  · next hcond =>
    rw [Bool.and_eq_true] at hcond
    have hl0 := le_constantMin_of_only hl hcond.1
    have hr1 := le_constantMin_of_only hr hcond.2
    obtain ⟨hlmin, hlmax⟩ := ha.abs_bounds_of_nonneg hl0
    obtain ⟨hrmin, hrmax⟩ := hb.abs_bounds_of_nonneg (by omega)
    have ha1 := ha.le; have ha2 := ha.ge; have hb1 := hb.le; have hb2 := hb.ge
    rw [hlmin, hlmax, hrmin, hrmax]
    have hlow : (left.constantMin t).tdiv (right.constantMax t) ≤ a.tdiv b := by
      rw [tdiv_eq_ediv_of_nonneg hl0, tdiv_eq_ediv_of_nonneg (by omega),
        Int.le_ediv_iff_mul_le (by omega)]
      calc left.constantMin t / right.constantMax t * b
          ≤ left.constantMin t / right.constantMax t * right.constantMax t :=
            mul_le_mul_of_nonneg_left hb2 (ediv_nonneg hl0 (by omega))
        _ ≤ left.constantMin t := Int.ediv_mul_le _ (by omega)
        _ ≤ a := ha1
    have hhigh : a.tdiv b ≤ (left.constantMax t).tdiv (right.constantMin t) := by
      rw [tdiv_eq_ediv_of_nonneg (by omega), tdiv_eq_ediv_of_nonneg (by omega),
        Int.le_ediv_iff_mul_le (by omega)]
      calc a / b * right.constantMin t ≤ a / b * b :=
            mul_le_mul_of_nonneg_left hb1 (ediv_nonneg (by omega) (by omega))
        _ ≤ a := Int.ediv_mul_le _ (by omega)
        _ ≤ left.constantMax t := ha2
    have hq0 : 0 ≤ a.tdiv b := Int.tdiv_nonneg (by omega) (by omega)
    have hqa : a.tdiv b ≤ a := by
      rw [tdiv_eq_ediv_of_nonneg (by omega)]
      exact ediv_le_self _ (by omega)
    have h64 : IsInt64 (a.tdiv b) :=
      ⟨le_trans (by decide) hq0, hqa.trans ha.isInt64.2⟩
    rw [wrap64_of_isInt64 h64]
    exact make_constant_contains h64 hlow hhigh
  · exact make_contains (isInt64_wrap64 _) fun hinf _ => by simp [isInfinity] at hinf

omit hl hr ha in
/-- **The remainder** stays in its range. -/
theorem mod_sound (hb0 : b ≠ 0) : (make (mod t right).1 (mod t right).2).Contains ρ (a % b) := by
  have hnonneg : 0 ≤ a % b := emod_nonneg a hb0
  have hlt : a % b < |b| := emod_lt_abs a hb0
  have hb64 := hb.isInt64
  have habs : |b| ≤ int64Max + 1 := by
    unfold IsInt64 int64Min int64Max at *
    rcases abs_cases b with ⟨h, _⟩ | ⟨h, _⟩ <;> omega
  have h64 : IsInt64 (a % b) := ⟨le_trans (by decide) hnonneg, by omega⟩
  refine make_constant_contains h64 hnonneg ?_
  split
  · next hmin =>
    have hle := hb.abs_le hmin
    have hmax : right.constantAbsMax t ≤ int64Max := by
      obtain ⟨h1, h2⟩ := hb.lo
      obtain ⟨h3, h4⟩ := hb.hi
      have hne := hb.constantMax_ne hmin
      rw [constantAbsMax, absWithSaturation_of_ne hmin, absWithSaturation_of_ne hne]
      have hb' : int64Min = -(int64Max + 1) := by decide
      exact max_le (abs_le.mpr (by omega)) (abs_le.mpr (by omega))
    have h64' : IsInt64 (right.constantAbsMax t - 1) := by
      unfold IsInt64 int64Min at *
      constructor <;> omega
    rw [wrap64_of_isInt64 h64']
    exact le_max_of_le_left (by omega)
  · omega

end

/-! ## Shifts -/

/-- `RangeBoundary::Shl` of a constant is exact unless it reports an overflow. -/
theorem shl_boundary_spec {overflow : RangeBoundary} (hc : IsInt64 c)
    (hcount : 0 ≤ count) (hover : overflow.isInfinity = true)
    (hfin : (RangeBoundary.shl c count overflow).isInfinity = false) :
    RangeBoundary.shl c count overflow = .constant (c * 2 ^ count.toNat) ∧
      IsInt64 (c * 2 ^ count.toNat) := by
  unfold RangeBoundary.shl at hfin ⊢
  dsimp only at hfin ⊢
  split_ifs at hfin ⊢ with h0 hcond
  · rw [h0, zero_mul]
    exact ⟨rfl, by decide⟩
  · have h64 : IsInt64 (c * 2 ^ count.toNat) := by
      rcases hcond with rfl | ⟨hlim, hint⟩
      · simpa using hc
      -- `c` fits `64 - count` bits, so the product fits 64.
      simp only [isInt, Bool.and_eq_true, decide_eq_true_eq] at hint
      have hpow : (2 : ℤ) ^ ((64 - count).toNat - 1) * 2 ^ count.toNat = 2 ^ 63 := by
        rw [← pow_add]
        congr 1
        omega
      have hpos : (0 : ℤ) < 2 ^ count.toNat := by positivity
      rw [isInt64_iff, ← hpow, ← neg_mul]
      exact ⟨mul_le_mul_of_nonneg_right hint.1 hpos.le, mul_lt_mul_of_pos_right hint.2 hpos⟩
    rw [wrap64_of_isInt64 h64]
    exact ⟨rfl, h64⟩
  · exact absurd hfin (by simp [hover])

/-- A shift by 64 or more leaves nothing. -/
theorem shl_eq_wrap64 :
    (if b ≥ 64 then 0 else wrap64 (a * 2 ^ b.toNat)) = wrap64 (a * 2 ^ b.toNat) := by
  split_ifs with h64
  · refine (bmod_eq_zero_of_dvd ?_).symm
    exact Dvd.dvd.mul_left (pow_dvd_pow 2 (show 64 ≤ b.toNat by omega)) a
  · rfl

/-- A shift count lies between the bounds of the counts. -/
theorem Between.shift_bounds (h : Between t r x) (hx : 0 ≤ x) :
    0 ≤ r.shiftMin t ∧ 0 ≤ r.shiftMax t ∧ (r.shiftMin t).toNat ≤ x.toNat ∧
      x.toNat ≤ (r.shiftMax t).toNat :=
  ⟨le_max_right _ _, le_max_right _ _, toNat_le_toNat (max_le h.le hx),
    toNat_le_toNat (le_max_of_le_left h.ge)⟩

/-- **The left shift** stays in its range. -/
theorem shl_sound (ha : Between t left a) (hb : Between t right b) (hb0 : 0 ≤ b) :
    (make (shl t left right).1 (shl t left right).2).Contains ρ
      (if b ≥ 64 then 0 else wrap64 (a * 2 ^ b.toNat)) := by
  obtain ⟨hmin0, hmax0, hm1, hm2⟩ := hb.shift_bounds hb0
  rw [shl_eq_wrap64]
  refine make_contains (isInt64_wrap64 _) fun hfin1 hfin2 => ?_
  simp only [shl] at hfin1 hfin2 ⊢
  -- Neither side overflowed, so both boundaries are exact shifts.
  obtain ⟨hlo, hlo64⟩ := shl_boundary_spec ha.lo (by split <;> assumption) (by split <;> rfl) hfin1
  obtain ⟨hhi, hhi64⟩ := shl_boundary_spec ha.hi (by split <;> assumption) (by split <;> rfl) hfin2
  rw [hlo, hhi]
  refine wrap64_mem_of_bounds hlo64 hhi64 ?_ ?_
  · split_ifs with hpos
    · exact mul_pow_le_mul_pow (hpos.le.trans ha.le) ha.le hm1
    · exact mul_pow_le_mul_pow_of_nonpos (not_lt.mp hpos) ha.le hm2
  · split_ifs with hpos
    · exact mul_pow_le_mul_pow hpos.le ha.ge hm2
    · exact mul_pow_le_mul_pow_of_nonpos (ha.ge.trans (not_lt.mp hpos)) ha.ge hm1

/-- Shifting a 64-bit value right by more than 63 leaves only its sign. -/
theorem ediv_pow_of_le (hc : IsInt64 c) {count : ℕ} (h : 63 ≤ count) :
    c / 2 ^ count = if c < 0 then -1 else 0 := by
  have hpow : (2 : ℤ) ^ 63 ≤ 2 ^ count := pow_le_pow_right₀ (by norm_num) h
  rw [isInt64_iff] at hc
  split
  · rw [ediv_eq_iff_of_pos (by positivity)]
    constructor <;> omega
  · exact ediv_eq_zero_of_lt (by omega) (by omega)

/-- Shifting to the right keeps 64-bit integers. -/
theorem isInt64_ediv_pow (ha : IsInt64 a) (n : ℕ) : IsInt64 (a / 2 ^ n) := by
  have hpow : (1 : ℤ) ≤ 2 ^ n := one_le_pow₀ (by norm_num)
  obtain ⟨h1, h2⟩ := isInt64_iff.mp ha
  rw [isInt64_iff]
  constructor
  · rw [Int.le_ediv_iff_mul_le (by positivity)]
    nlinarith
  · rw [Int.ediv_lt_iff_lt_mul (by positivity)]
    nlinarith

/-- An arithmetic shift is a division, also by 64 or more. -/
theorem shr_eq_ediv (ha : IsInt64 a) :
    (if b ≥ 64 then (if a < 0 then -1 else 0) else a / 2 ^ b.toNat) = a / 2 ^ b.toNat := by
  split
  · rw [ediv_pow_of_le ha (by omega)]
  · rfl

/-- A logical shift is a division, also by 64 or more. -/
theorem ushr_eq_ediv {u n : ℤ} (hu : 0 ≤ u) (hu' : u < 2 ^ 64) :
    (if n ≥ 64 then 0 else u / 2 ^ n.toNat) = u / 2 ^ n.toNat := by
  split_ifs with hn
  · have hpow : (2 : ℤ) ^ 64 ≤ 2 ^ n.toNat := pow_le_pow_right₀ (by norm_num) (by omega)
    exact (ediv_eq_zero_of_lt hu (by omega)).symm
  · rfl

/-- The logical shift of a signed value. -/
theorem ushr_eq_wrap64 (a b : ℤ) : (if b ≥ 64 then 0 else wrap64 (a % 2 ^ 64 / 2 ^ b.toNat)) =
    wrap64 (a % 2 ^ 64 / 2 ^ b.toNat) :=
  (apply_ite wrap64 ..).symm.trans (congrArg wrap64 (ushr_eq_ediv (by omega) (by omega)))

/-- `RangeBoundary::Shr` of a constant divides by the power of two for every count. -/
theorem shr_boundary_spec (hc : IsInt64 c) :
    RangeBoundary.shr c count = .constant (c / 2 ^ count.toNat) := by
  unfold RangeBoundary.shr
  by_cases h : count ≤ 63
  · rw [if_pos h]
  · rw [if_neg h, ediv_pow_of_le hc (by omega)]
    by_cases hneg : c < 0
    · rw [if_neg (by omega), if_pos hneg]
    · rw [if_pos (by omega), if_neg hneg]

/-- **The arithmetic right shift** stays in its range. -/
theorem shr_sound (ha : Between t left a) (hb : Between t right b) (hb0 : 0 ≤ b) :
    (make (shr t left right).1 (shr t left right).2).Contains ρ
      (if b ≥ 64 then (if a < 0 then -1 else 0) else a / 2 ^ b.toNat) := by
  obtain ⟨-, -, hm1, hm2⟩ := hb.shift_bounds hb0
  have ha1 := ha.le
  have ha2 := ha.ge
  have hlow : left.constantMin t /
      2 ^ (if left.constantMin t > 0 then right.shiftMax t else right.shiftMin t).toNat
        ≤ a / 2 ^ b.toNat := by
    by_cases hpos : left.constantMin t > 0
    · rw [if_pos hpos]
      exact ediv_pow_le_ediv_pow (by omega) ha1 hm2
    rw [if_neg hpos]
    by_cases haneg : a < 0
    · exact ediv_pow_le_ediv_pow_of_neg haneg ha1 hm1
    · exact le_trans (Int.ediv_le_of_le_mul (by positivity) (by omega))
        (ediv_nonneg (by omega) (by positivity))
  have hhigh : a / 2 ^ b.toNat ≤ left.constantMax t /
      2 ^ (if left.constantMax t > 0 then right.shiftMin t else right.shiftMax t).toNat := by
    by_cases hpos : left.constantMax t > 0
    · rw [if_pos hpos]
      by_cases haneg : a < 0
      · exact le_trans (ediv_neg_of_neg_of_pos haneg (by positivity)).le
          (ediv_nonneg (by omega) (by positivity))
      · exact ediv_pow_le_ediv_pow (by omega) ha2 hm1
    · rw [if_neg hpos]
      rcases (not_lt.mp hpos).eq_or_lt with h0 | hneg
      · rw [h0, zero_ediv]
        exact Int.ediv_le_of_le_mul (by positivity) (by omega)
      · exact ediv_pow_le_ediv_pow_of_neg hneg ha2 hm2
  rw [shr_eq_ediv ha.isInt64]
  simp only [shr, shr_boundary_spec ha.lo, shr_boundary_spec ha.hi]
  exact make_constant_contains (isInt64_ediv_pow ha.isInt64 _) hlow hhigh

/-- `ConvertRangeToUnsigned` bounds the unsigned readings of the values of the range. -/
theorem convertRangeToUnsigned_spec (h : Between t r x) :
    0 ≤ (convertRangeToUnsigned (r.constantMin t) (r.constantMax t)).1 ∧
      (convertRangeToUnsigned (r.constantMin t) (r.constantMax t)).1 ≤ x % 2 ^ 64 ∧
      x % 2 ^ 64 ≤ (convertRangeToUnsigned (r.constantMin t) (r.constantMax t)).2 ∧
      (convertRangeToUnsigned (r.constantMin t) (r.constantMax t)).2 < 2 ^ 64 := by
  have h1 := h.le
  have h2 := h.ge
  have hlo := isInt64_iff.mp h.lo
  have hhi := isInt64_iff.mp h.hi
  unfold convertRangeToUnsigned uint64Max
  split <;> simp only <;> omega

/-- `ConvertRangeToSigned` bounds the signed readings of the values of an unsigned range. -/
theorem convertRangeToSigned_spec {lo hi u : ℤ} (h0 : 0 ≤ lo) (h1 : lo ≤ u) (h2 : u ≤ hi)
    (h64 : hi < 2 ^ 64) :
    (convertRangeToSigned lo hi).1 ≤ wrap64 u ∧ wrap64 u ≤ (convertRangeToSigned lo hi).2 := by
  unfold convertRangeToSigned
  split
  · exact isInt64_wrap64 u
  next hcond =>
  -- Both ends are in the same half, on which the conversion is monotone.
  have hwrap : ∀ z, 0 ≤ z → z < 2 ^ 64 →
      wrap64 z = if z < 2 ^ 63 then z else z - 2 ^ 64 := by
    intro z hz hz'
    have hemod := wrap64_emod z
    have h64 := isInt64_iff.mp (isInt64_wrap64 z)
    split <;> omega
  rw [hwrap lo (by omega) (by omega), hwrap u (by omega) (by omega), hwrap hi (by omega) (by omega)]
  unfold int64Max at hcond
  split <;> split <;> split <;> constructor <;> omega

/-- **The logical right shift** stays in its range. -/
theorem ushr_sound (ha : Between t left a) (hb : Between t right b) (hb0 : 0 ≤ b) :
    (make (ushr t left right).1 (ushr t left right).2).Contains ρ
      (if b ≥ 64 then 0 else wrap64 (a % 2 ^ 64 / 2 ^ b.toNat)) := by
  obtain ⟨-, -, hm1, hm2⟩ := hb.shift_bounds hb0
  obtain ⟨hu0, hu1, hu2, hu64⟩ := convertRangeToUnsigned_spec ha
  rw [ushr_eq_wrap64]
  simp only [ushr]
  set ul := convertRangeToUnsigned (left.constantMin t) (left.constantMax t)
  rw [ushr_eq_ediv hu0 (by omega), ushr_eq_ediv (by omega) hu64]
  obtain ⟨h1, h2⟩ := convertRangeToSigned_spec
    (ediv_nonneg hu0 (by positivity) : 0 ≤ ul.1 / 2 ^ (right.shiftMax t).toNat)
    (ediv_pow_le_ediv_pow hu0 hu1 hm2) (ediv_pow_le_ediv_pow (by omega) hu2 hm1)
    (lt_of_le_of_lt (ediv_le_self _ (by omega)) hu64)
  exact make_constant_contains (isInt64_wrap64 _) h1 h2

/-! ## Bitwise operations -/

/-- The search of `HighestBit` keeps `v / 2^r = x`; after a step at `k` the value has at most `k`
bits. -/
theorem highestBitStep_spec {k v : ℕ} {s : ℕ × ℕ}
    (h : v / 2 ^ s.2 = s.1 ∧ s.1 ≠ 0 ∧ s.1 < 2 ^ (2 * k)) :
    v / 2 ^ (highestBitStep k s).2 = (highestBitStep k s).1 ∧ (highestBitStep k s).1 ≠ 0 ∧
      (highestBitStep k s).1 < 2 ^ k := by
  obtain ⟨hdiv, hne, hlt⟩ := h
  unfold highestBitStep
  split_ifs with hzero
  · refine ⟨by rw [pow_add, ← Nat.div_div_eq_div_mul, hdiv], hzero, ?_⟩
    rw [two_mul, pow_add] at hlt
    exact Nat.div_lt_of_lt_mul hlt
  · rw [not_not, Nat.div_eq_zero_iff] at hzero
    exact ⟨hdiv, hne, hzero.resolve_left (by positivity)⟩

/-- **`HighestBit`** is the position of the highest bit set. -/
theorem highestBit_spec {v : ℕ} (h0 : v ≠ 0) (h64 : v < 2 ^ 64) :
    2 ^ highestBit v ≤ v ∧ v < 2 ^ (highestBit v + 1) := by
  obtain ⟨hdiv, hne, hlt⟩ := highestBitStep_spec (k := 2) <| highestBitStep_spec <|
    highestBitStep_spec <| highestBitStep_spec <|
    highestBitStep_spec (v := v) (s := (v, 0)) ⟨by simp, h0, h64⟩
  unfold highestBit
  simp only
  set s := highestBitStep 2 (highestBitStep 4 (highestBitStep 8 (highestBitStep 16
    (highestBitStep 32 (v, 0)))))
  have hpos : 0 < 2 ^ s.2 := by positivity
  -- The remaining value is 1, 2 or 3.
  have hlow : s.1 * 2 ^ s.2 ≤ v := by rw [← hdiv]; exact Nat.div_mul_le_self v _
  have hhigh : v < (s.1 + 1) * 2 ^ s.2 := by
    rw [← hdiv]
    exact Nat.lt_mul_of_div_lt (Nat.lt_succ_self _) hpos
  split
  · constructor
    · rw [pow_succ]; nlinarith
    · rw [pow_succ, pow_succ]; nlinarith
  · have hone : s.1 = 1 := by omega
    rw [hone] at hlow hhigh
    constructor
    · omega
    · rw [pow_succ]; omega

/-- **`BitLength`**: the value fits that many bits and a sign, of which a 64-bit word has 63. -/
theorem bitLength_spec (hc : IsInt64 c) :
    bitLength c ≤ 63 ∧ -2 ^ bitLength c ≤ c ∧ c < 2 ^ bitLength c := by
  rw [isInt64_iff] at hc
  unfold bitLength
  set w := if c < 0 then -c - 1 else c with hw
  by_cases h0 : w = 0
  · rw [if_pos h0]
    rw [hw] at h0
    split at h0 <;> norm_num <;> omega
  rw [if_neg h0]
  obtain ⟨h1, h2⟩ := highestBit_spec (v := w.toNat) (by omega) (by omega)
  have hlen : highestBit w.toNat < 63 := by
    by_contra hge
    have : 2 ^ 63 ≤ 2 ^ highestBit w.toNat := Nat.pow_le_pow_right (by norm_num) (by omega)
    omega
  have h2' : w < 2 ^ (highestBit w.toNat + 1) := by
    have : (w.toNat : ℤ) < ((2 ^ (highestBit w.toNat + 1) : ℕ) : ℤ) := by exact_mod_cast h2
    push_cast at this
    omega
  refine ⟨by omega, ?_⟩
  rw [hw] at h2' ⊢
  split at h2' <;> rename_i hneg
  · simp only [if_pos hneg] at h2' ⊢
    constructor <;> omega
  · simp only [if_neg hneg] at h2' ⊢
    constructor <;> omega

/-- A value has at most as many bits as its range. -/
theorem Between.bitSize_spec (h : Between t r x) {k : ℕ} (hk : r.bitSize t ≤ k) :
    -2 ^ k ≤ x ∧ x < 2 ^ k := by
  obtain ⟨-, hlo, -⟩ := bitLength_spec h.lo
  obtain ⟨-, -, hhi⟩ := bitLength_spec h.hi
  have h1 := h.le
  have h2 := h.ge
  have hk1 : (2 : ℤ) ^ bitLength (r.constantMin t) ≤ 2 ^ k :=
    pow_le_pow_right₀ (by norm_num) ((le_max_left _ _).trans hk)
  have hk2 : (2 : ℤ) ^ bitLength (r.constantMax t) ≤ 2 ^ k :=
    pow_le_pow_right₀ (by norm_num) ((le_max_right _ _).trans hk)
  constructor <;> omega

/-- 64-bit integers have 63 bits beside the sign. -/
theorem bitSize_le (hlo : IsInt64 (r.constantMin t)) (hhi : IsInt64 (r.constantMax t)) :
    r.bitSize t ≤ 63 :=
  max_le (bitLength_spec hlo).1 (bitLength_spec hhi).1

/-- `Range::BitwiseOp` is sound for every operation that works bit by bit and maps zeros to zero. -/
theorem bitwiseOp_sound {op : BitVec 64 → BitVec 64 → BitVec 64}
    (hdistrib : ∀ (k : ℕ) x y, (op x y).sshiftRight k = op (x.sshiftRight k) (y.sshiftRight k))
    (hclosed : ∀ x y, (x = 0#64 ∨ x = BitVec.allOnes 64) → (y = 0#64 ∨ y = BitVec.allOnes 64) →
      (op x y = 0#64 ∨ op x y = BitVec.allOnes 64))
    (hzero : op 0#64 0#64 = 0#64)
    (hl : left.Valid t ρ) (hr : right.Valid t ρ) (ha : Between t left a) (hb : Between t right b) :
    (make (bitwiseOp t left right).1 (bitwiseOp t left right).2).Contains ρ
      (bitwise64 op a b) := by
  have ha64 := ha.isInt64
  have hb64 := hb.isInt64
  simp only [bitwiseOp]
  set k := Max.max (left.bitSize t) (right.bitSize t)
  have hk : k ≤ 63 := max_le (bitSize_le ha.lo ha.hi) (bitSize_le hb.lo hb.hi)
  obtain ⟨h1, h2⟩ := bitwise64_mem (hdistrib k) hclosed ha64 hb64
    (ha.bitSize_spec (le_max_left _ _)) (hb.bitSize_spec (le_max_right _ _))
  have hpow : (2 : ℤ) ^ k ≤ 2 ^ 63 := pow_le_pow_right₀ (by norm_num) hk
  have hmin : wrap64 (-2 ^ k) = -2 ^ k := wrap64_of_isInt64 (isInt64_iff.mpr (by omega))
  have hmax : wrap64 (2 ^ k - 1) = 2 ^ k - 1 := wrap64_of_isInt64 (isInt64_iff.mpr (by omega))
  have h64 : IsInt64 (bitwise64 op a b) := isInt64_toInt _
  rw [hmin]
  split
  · next hpositive =>
    rw [Bool.and_eq_true] at hpositive
    have hla := le_constantMin_of_only hl hpositive.1
    have hrb := le_constantMin_of_only hr hpositive.2
    have := ha.le
    have := hb.le
    have hnonneg := bitwise64_nonneg (hdistrib 63) hzero ha64 hb64 (by omega) (by omega)
    exact make_constant_contains h64 hnonneg (by omega)
  · exact make_constant_contains h64 h1 (by omega)

/-- **Conjunction** stays in its range. -/
theorem and_sound (hl : left.Valid t ρ) (hr : right.Valid t ρ) (ha : Between t left a)
    (hb : Between t right b) :
    (make (and t left right).1 (and t left right).2).Contains ρ (bitwise64 (· &&& ·) a b) := by
  have h64 : IsInt64 (bitwise64 (· &&& ·) a b) := isInt64_toInt _
  have ha1 := ha.le
  have ha2 := ha.ge
  have hb1 := hb.le
  have hb2 := hb.ge
  unfold and
  split
  · obtain ⟨h1, h2⟩ := bitwise64_and_le hb.isInt64 (by omega)
    exact make_constant_contains h64 h1 (by omega)
  split
  · obtain ⟨h1, h2⟩ := bitwise64_and_le ha.isInt64 (by omega)
    have hcomm : bitwise64 (· &&& ·) b a = bitwise64 (· &&& ·) a b := by
      simp only [bitwise64, BitVec.and_comm]
    rw [hcomm] at h1 h2
    exact make_constant_contains h64 h1 (by omega)
  · refine bitwiseOp_sound (fun k x y => BitVec.sshiftRight_and_distrib x y k) ?_ rfl hl hr ha hb
    rintro x y (rfl | rfl) (rfl | rfl) <;> decide

end Range

/-! ## All operations -/

/-- **Soundness of `Range::BinaryOp`.** For every operation, all finite valid ranges and all 64-bit
operands in them for which it is defined, the result lies in the computed range. If the left operand
is an array length, `leftDefn` is its definition. -/
theorem Range.binaryOp_sound (t : Target) (ρ : Valuation) (op : Token) (left right : Range)
    (leftDefn : Option Definition) (a b result : ℤ)
    (hl : left.Valid t ρ) (hr : right.Valid t ρ)
    (ha64 : IsInt64 a) (hb64 : IsInt64 b)
    (ha : left.Contains ρ a) (hb : right.Contains ρ b)
    (hdefn : ∀ d ∈ leftDefn, d.info.isArrayLength = true → a = ρ d ∧ d.Valid t ρ (ρ d))
    (hresult : evalBinaryOp op a b = some result) :
    (Range.binaryOp t op left right leftDefn).Contains ρ result := by
  have hba := between_of_contains hl ha64 ha
  have hbb := between_of_contains hr hb64 hb
  cases op with
  | add =>
    cases hresult
    exact add_sound hl hr ha hb hdefn
  | sub =>
    cases hresult
    exact sub_sound hl hr ha hb hdefn
  | mul =>
    cases hresult
    exact mul_sound hl hr hba hbb
  -- These throw for some operands, for which nothing is claimed.
  | truncDiv =>
    obtain ⟨-, hres⟩ := Option.ite_none_left_eq_some.mp hresult
    cases hres
    exact truncDiv_sound hl hr hba hbb
  | mod =>
    obtain ⟨hb0, hres⟩ := Option.ite_none_left_eq_some.mp hresult
    cases hres
    exact mod_sound hbb hb0
  | shl =>
    obtain ⟨hb0, hres⟩ := Option.ite_none_left_eq_some.mp hresult
    cases hres
    exact shl_sound hba hbb (not_lt.mp hb0)
  | shr =>
    obtain ⟨hb0, hres⟩ := Option.ite_none_left_eq_some.mp hresult
    cases hres
    exact shr_sound hba hbb (not_lt.mp hb0)
  | ushr =>
    obtain ⟨hb0, hres⟩ := Option.ite_none_left_eq_some.mp hresult
    cases hres
    exact ushr_sound hba hbb (not_lt.mp hb0)
  | bitAnd =>
    cases hresult
    exact and_sound hl hr hba hbb
  | bitOr =>
    obtain rfl := Option.some.inj hresult
    refine bitwiseOp_sound (fun k x y => BitVec.sshiftRight_or_distrib x y k) ?_ rfl
      hl hr hba hbb
    rintro x y (rfl | rfl) (rfl | rfl) <;> decide
  | bitXor =>
    obtain rfl := Option.some.inj hresult
    refine bitwiseOp_sound (fun k x y => BitVec.sshiftRight_xor_distrib x y k) ?_ rfl
      hl hr hba hbb
    rintro x y (rfl | rfl) (rfl | rfl) <;> decide
  | other => exact absurd hresult (by simp [evalBinaryOp])

/-- The sum of a symbolic range `[v0, v0 + 5]`, with `v0` in `[0, 100]`, and the range `[1, 3]`, for
`v0 = 10`. -/
theorem Range.binaryOp_sound_symbolic :
    let t : Target := ⟨62, Or.inr rfl⟩
    let v0 := Definition.mk 0 ⟨none, false⟩ (.range (.constant 0) (.constant 100))
    let left : Range := ⟨.symbol v0 0, .symbol v0 5⟩
    let right : Range := ⟨.constant 1, .constant 3⟩
    evalBinaryOp .add 12 2 = some 14 ∧
      (Range.binaryOp t .add left right none).Contains (fun _ => 10) 14 := by
  intro t v0 left right
  have hv0 : v0.Valid t (fun _ => 10) 10 := by
    refine ⟨by decide, by simp, ⟨?_, ?_⟩, ?_⟩
    · show IsInt64 0; decide
    · show IsInt64 100; decide
    · show (0 : ℤ) ≤ 10 ∧ (10 : ℤ) ≤ 100; decide
  have hleft : left.Valid t (fun _ => 10) := ⟨⟨by decide, hv0⟩, ⟨by decide, hv0⟩⟩
  have hright : right.Valid t (fun _ => 10) := by
    constructor
    · show IsInt64 1; decide
    · show IsInt64 3; decide
  refine ⟨by decide, Range.binaryOp_sound t _ .add left right none 12 2 14 hleft hright
    (by decide) (by decide) ?_ ?_ (by simp) (by decide)⟩
  · show (10 : ℤ) + 0 ≤ 12 ∧ (12 : ℤ) ≤ 10 + 5; decide
  · show (1 : ℤ) ≤ 2 ∧ (2 : ℤ) ≤ 3; decide

end DartVm
