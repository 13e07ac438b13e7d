import DartVm.BigInt.DivRem
import DartVm.BigInt.Shifts
import Mathlib.Data.Int.ModEq

/-! # The division operators and their cache

`_divRem` keeps its last result in static fields, with the identities of the arrays of its operands,
for the next call with these arrays.  The signs are not part of the key: quotient and remainder get
theirs from the operands at hand.

* `IsCache`: what the static fields hold.
* `Mode.cachedDivRem_spec`: a cached result is used only for the operands that it belongs to.
* `Mode.runCalls_spec`: every sequence of divisions is right.
* `division_operators_correct`: `~/`, `remainder` and `%` after any calls. -/

namespace DartVm.BigInt

open Postcondition Positional BigIntImpl Int Mode

/-! ## Model -/

/-- A big integer as its methods see it, with the identity of its array of digits. -/
structure Ref (ArrayId : Type) where
  isNegative : Bool
  used : ℕ
  digits : ArrayId

/-- `_lastDividendDigits`, `_lastDividendUsed`, `_lastDivisorDigits`, `_lastDivisorUsed` and the
result. -/
structure LastDivision (ArrayId : Type) where
  dividendDigits : ArrayId
  dividendUsed : ℕ
  divisorDigits : ArrayId
  divisorUsed : ℕ
  quoRem : QuoRem

/-- The quotient with its sign. -/
def QuoRem.quotient (s : QuoRem) (isNegative : Bool) : Option BigIntImpl := do
  let lastQuoUsed := s.used - s.remUsed
  let quoDigits ← cloneDigits s.digits s.remUsed s.used lastQuoUsed
  let quo ← make false lastQuoUsed quoDigits
  if isNegative ∧ 0 < quo.used then neg quo else return quo

/-- Denormalize the remainder. -/
def QuoRem.denormalize (s : QuoRem) (rem : BigIntImpl) : Option BigIntImpl :=
  if 0 < s.nsh then shiftRight rem s.nsh else some rem

/-- The remainder with its sign. -/
def QuoRem.remainder (s : QuoRem) (isNegative : Bool) : Option BigIntImpl := do
  let remDigits ← cloneDigits s.digits 0 s.remUsed s.remUsed
  let rem ← s.denormalize (← make false s.remUsed remDigits)
  if isNegative ∧ 0 < rem.used then neg rem else return rem

/-- What a call of an operator ends with: a result, or an `IntegerDivisionByZeroException`. -/
inductive Outcome
  | result (r : BigIntImpl)
  | divisionByZero

/-- `~/`, `remainder` and `%`. -/
inductive DivisionOperator
  | truncatingDivide
  | remainder
  | modulo
  deriving DecidableEq, Repr

section Model

variable {ArrayId : Type} (heap : ArrayId → Digits)

/-- The fields with the elements of the array, which is not written to any more. -/
def Ref.fields (x : Ref ArrayId) : BigIntImpl := ⟨x.isNegative, x.used, heap x.digits⟩

variable [DecidableEq ArrayId]

/-- Whether the cached result is that for the given operands. -/
def LastDivision.isFor (last : LastDivision ArrayId) (x other : Ref ArrayId) : Bool :=
  x.used = last.dividendUsed && other.used = last.divisorUsed && x.digits = last.dividendDigits &&
    other.digits = last.divisorDigits

namespace Mode

/-- `_divRem`, from the values of the static fields before to those after it. -/
def cachedDivRem (mode : Mode) (last : Option (LastDivision ArrayId)) (x other : Ref ArrayId) :
    Option (LastDivision ArrayId) :=
  match last.filter fun l => l.isFor x other with
  | some l => some l
  | none => do
      let quoRem ← mode.divRem (x.fields heap) (other.fields heap)
      return ⟨x.digits, x.used, other.digits, other.used, quoRem⟩

/-- `_div`: the truncated quotient, from the cache if the operands are the same arrays. -/
def div (mode : Mode) (last : Option (LastDivision ArrayId)) (x other : Ref ArrayId) :
    Option (BigIntImpl × Option (LastDivision ArrayId)) := do
  guard (0 < other.used)
  if x.used < other.used then return (zero, last)
  else
    let last ← mode.cachedDivRem heap last x other
    return (← last.quoRem.quotient (x.isNegative != other.isNegative), some last)

/-- `_rem`: the remainder with the sign of the dividend. -/
def rem (mode : Mode) (last : Option (LastDivision ArrayId)) (x other : Ref ArrayId) :
    Option (BigIntImpl × Option (LastDivision ArrayId)) := do
  guard (0 < other.used)
  if x.used < other.used then return (x.fields heap, last)
  else
    let last ← mode.cachedDivRem heap last x other
    return (← last.quoRem.remainder x.isNegative, some last)

/-- The correction of `operator %`: a negative remainder becomes positive. -/
def toModulo (result other : BigIntImpl) : Option BigIntImpl :=
  if result.isNegative then
    if other.isNegative then sub result other else add result other
  else some result

/-- A call of `operator ~/`, `remainder` or `operator %`. -/
def call (mode : Mode) (operator : DivisionOperator) (last : Option (LastDivision ArrayId))
    (x other : Ref ArrayId) : Option (Outcome × Option (LastDivision ArrayId)) := do
  if other.used = 0 then return (.divisionByZero, last)
  else
    match operator with
    | .truncatingDivide =>
      let (result, last) ← mode.div heap last x other
      return (.result result, last)
    | .remainder =>
      let (result, last) ← mode.rem heap last x other
      return (.result result, last)
    | .modulo =>
      let (result, last) ← mode.rem heap last x other
      return (.result (← toModulo result (other.fields heap)), last)

end Mode

end Model

/-! ## Quotient and remainder -/

variable {s : QuoRem} {v w : ℕ} {isNegative : Bool} {x y : BigIntImpl} {a b : ℤ}

/-- The sign is set last, and zero keeps none. -/
theorem applySign_spec (hx : x.IsNormal) (hvalue : x.toInt = v) :
    Yields (if isNegative ∧ 0 < x.used then neg x else some x) (signed isNegative v) := by
  refine returns_ite (fun h => (neg_spec hx).of_eq ?_) fun h => ⟨hx, ?_⟩
  · rw [hvalue, signed, if_pos h.1]
  rw [hvalue]
  by_cases hneg : isNegative = true
  · have hused : x.used = 0 := by
      have := mt (And.intro hneg) h
      omega
    rw [hx.toInt_eq_zero_iff.mpr hused] at hvalue
    rw [← hvalue, show v = 0 by omega, signed_zero]
  · rw [signed, if_neg hneg]

/-- A range of digits is copied into a result in normal form. -/
theorem cloneResult_spec {digits : Digits} {lo hi : ℕ} {k : BigIntImpl → Option BigIntImpl}
    (hd : IsDigits digits) (hlo : lo ≤ hi) (hhi : hi ≤ digits.length)
    (hk : ∀ r : BigIntImpl, r.IsNormal →
      r.toInt = value digitBase (fun i => digitAt digits (lo + i)) (hi - lo) → Yields (k r) a) :
    Yields (cloneDigits digits lo hi (hi - lo) >>= fun d => make false (hi - lo) d >>= k) a := by
  refine (cloneDigits_spec hd hlo hhi (by omega)).bind ?_
  rintro d ⟨hlength, hdigits, hd⟩
  refine (make_spec hdigits (by omega) (by omega) fun _ => ?_).bind fun r hr hvalue => hk r hr ?_
  · rw [hd, if_neg (lt_irrefl _)]
  · rw [hvalue, signed, if_neg Bool.false_ne_true]
    exact congrArg _ (value_congr fun i hi => by rw [hd, if_pos hi])

/-- The quotient is read off the digits above the remainder. -/
theorem QuoRem.quotient_spec (h : IsQuoRem v w s) :
    Yields (s.quotient isNegative) (signed isNegative (v / w)) :=
  cloneResult_spec h.isDigits h.remUsed_le h.used_le fun r hr hvalue =>
    applySign_spec hr (by rw [hvalue, h.quo_eq])

/-- Shifting back undoes the normalization. -/
theorem QuoRem.denormalize_spec (hx : x.IsNormal) (hvalue : x.toInt = (v * 2 ^ s.nsh : ℕ)) :
    Yields (s.denormalize x) v := by
  refine returns_ite (fun _ => (shiftRight_spec hx).of_eq ?_) fun hzero => ⟨hx, ?_⟩
  · rw [hvalue, Nat.cast_mul, Nat.cast_pow, Nat.cast_ofNat]
    exact mul_ediv_cancel _ (by positivity)
  · rw [hvalue, show s.nsh = 0 by omega, pow_zero, mul_one]

/-- The remainder is read off the low digits and shifted back. -/
theorem QuoRem.remainder_spec (h : IsQuoRem v w s) :
    Yields (s.remainder isNegative) (signed isNegative (v % w)) := by
  have hlen := h.used_le
  refine cloneResult_spec h.isDigits (Nat.zero_le _) (h.remUsed_le.trans hlen)
    fun r hr hvalue => (QuoRem.denormalize_spec hr ?_).bind fun r' => applySign_spec
  have hrem : value digitBase (fun i => digitAt s.digits (0 + i)) (s.remUsed - 0)
      = valueOf s.digits s.remUsed := value_congr fun i _ => by rw [zero_add]
  rw [hvalue, hrem, h.rem_eq]

/-! ## Signs -/

/-- Signs and truncated division. -/
theorem signed_tdiv (sign : Bool) (m n : ℕ) :
    signed (isNegative != sign) (m / n) = (signed isNegative m).tdiv (signed sign n) := by
  cases isNegative <;> cases sign <;> simp [signed, Int.neg_tdiv, Int.tdiv_neg]

/-- Signs and the remainder of truncated division. -/
theorem signed_tmod (sign : Bool) (m n : ℕ) :
    signed isNegative (m % n) = (signed isNegative m).tmod (signed sign n) := by
  cases isNegative <;> cases sign <;>
    simp [signed, neg_tmod, tmod_neg, tmod_eq_emod_of_nonneg]

/-- A remainder of any sign, brought into the range from zero to the divisor, is the modulus. -/
theorem emod_eq_of_tmod (hb : b ≠ 0) :
    a % b = if a.tmod b < 0 then a.tmod b + |b| else a.tmod b := by
  have hmod : a % b = a.tmod b % |b| := by
    rw [emod_abs, tmod_def, sub_mul_emod_self_left]
  have hlt : (a.tmod b).natAbs < b.natAbs := by
    rw [natAbs_tmod]
    exact Nat.mod_lt _ (natAbs_pos.mpr hb)
  have habs : |b| = b.natAbs := abs_eq_natAbs b
  rw [hmod]
  split_ifs with hneg
  · rw [← add_emod_right]
    exact emod_eq_of_lt (by omega) (by omega)
  · exact emod_eq_of_lt (by omega) (by omega)

/-- `%` corrects a negative remainder by the divisor. -/
theorem toModulo_spec (hx : x.IsNormal) (hy : y.IsNormal) (hne : y.used ≠ 0)
    (hvalue : x.toInt = a.tmod y.toInt) : Yields (Mode.toModulo x y) (a % y.toInt) := by
  have hneg := isNegative_iff hx
  have hyneg := isNegative_iff hy
  rw [emod_eq_of_tmod (mt hy.toInt_eq_zero_iff.mp hne), ← hvalue]
  refine returns_ite (fun h => ?_) fun h => ⟨hx, (if_neg (mt hneg.mpr h)).symm⟩
  rw [if_pos (hneg.mp h)]
  refine returns_ite (fun h' => (sub_spec hx hy).of_eq ?_) fun h' => (add_spec hx hy).of_eq ?_
  · rw [abs_of_neg (hyneg.mp h'), sub_eq_add_neg]
  · rw [abs_of_nonneg (not_lt.mp (mt hyneg.mpr h'))]

/-! ## Calls -/

section Calls

variable {ArrayId : Type} [DecidableEq ArrayId] {heap : ArrayId → Digits} {mode : Mode}
  {last : Option (LastDivision ArrayId)}

/-- **What is cached** is the result of the division of the numbers in the cached arrays. -/
def IsCache (heap : ArrayId → Digits) (last : Option (LastDivision ArrayId)) : Prop :=
  ∀ l ∈ last, IsQuoRem (valueOf (heap l.dividendDigits) l.dividendUsed)
    (valueOf (heap l.divisorDigits) l.divisorUsed) l.quoRem

/-- A big integer, whose array has an identity, in normal form. -/
structure NormalRef (heap : ArrayId → Digits) extends Ref ArrayId where
  isNormal : (toRef.fields heap).IsNormal

/-- The integer that a big integer stands for. -/
def NormalRef.toInt (x : NormalRef heap) : ℤ := (x.fields heap).toInt

variable {x y : NormalRef heap}

/-- **The cache is used only for the same operands**: the result is right, and so is the cache left
behind. -/
theorem Mode.cachedDivRem_spec (hlast : IsCache heap last) (hne : y.used ≠ 0)
    (hle : y.used ≤ x.used) :
    Returns False (mode.cachedDivRem heap last x.toRef y.toRef) fun l =>
      IsQuoRem (x.fields heap).magnitude (y.fields heap).magnitude l.quoRem ∧
        IsCache heap (some l) := by
  have hnew : ∀ l : LastDivision ArrayId, l.isFor x.toRef y.toRef → IsQuoRem
      (valueOf (heap l.dividendDigits) l.dividendUsed)
        (valueOf (heap l.divisorDigits) l.divisorUsed)
      l.quoRem → IsQuoRem (x.fields heap).magnitude (y.fields heap).magnitude l.quoRem ∧
        IsCache heap (some l) := by
    rintro ⟨xDigits, xUsed, yDigits, yUsed, quoRem⟩ hfor h
    simp only [LastDivision.isFor, Bool.and_eq_true, decide_eq_true_eq] at hfor
    obtain ⟨⟨⟨rfl, rfl⟩, rfl⟩, rfl⟩ := hfor
    refine ⟨h, fun l hl => ?_⟩
    cases hl
    exact h
  unfold Mode.cachedDivRem
  split
  · rename_i l hl
    rw [Option.filter_eq_some_iff] at hl
    exact hnew l hl.2 (hlast l hl.1)
  · refine (mode.divRem_spec x.isNormal y.isNormal hne hle).bind fun quoRem h => ?_
    exact hnew _ (by simp [LastDivision.isFor]) h

/-- A method of the division returns `v`, and leaves what it should in the cache. -/
def Divides (heap : ArrayId → Digits) (c : Option (BigIntImpl × Option (LastDivision ArrayId)))
    (v : ℤ) : Prop :=
  Returns False c fun s => (s.1.IsNormal ∧ s.1.toInt = v) ∧ IsCache heap s.2

/-- `_div` is truncated division, whatever is in the cache. -/
theorem Mode.div_spec (hlast : IsCache heap last) (hne : y.used ≠ 0) :
    Divides heap (mode.div heap last x.toRef y.toRef) (x.toInt.tdiv y.toInt) := by
  have hdiv : signed (x.isNegative != y.isNegative)
      ((x.fields heap).magnitude / (y.fields heap).magnitude) =
        x.toInt.tdiv y.toInt := signed_tdiv _ _ _
  unfold Mode.div
  refine returns_bind_of_eq (if_pos (pos_of_ne_zero hne)) ?_
  rw [← hdiv]
  refine returns_ite (fun hlt => ?_) fun hge => ?_
  · have hsmall := x.isNormal.magnitude_lt_of_used_lt y.isNormal hlt
    rw [Nat.div_eq_of_lt hsmall, signed_zero]
    exact ⟨⟨IsNormal.isNormal_zero, IsNormal.toInt_zero⟩, hlast⟩
  · refine (cachedDivRem_spec hlast hne (not_lt.mp hge)).bind ?_
    rintro l ⟨hl, hcache⟩
    exact Returns.bind (QuoRem.quotient_spec hl) fun r hr => ⟨hr, hcache⟩

/-- `_rem` is the remainder of truncated division, whatever is in the cache. -/
theorem Mode.rem_spec (hlast : IsCache heap last) (hne : y.used ≠ 0) :
    Divides heap (mode.rem heap last x.toRef y.toRef) (x.toInt.tmod y.toInt) := by
  have hmod : signed x.isNegative ((x.fields heap).magnitude % (y.fields heap).magnitude)
      = x.toInt.tmod y.toInt := signed_tmod _ _ _
  unfold Mode.rem
  refine returns_bind_of_eq (if_pos (pos_of_ne_zero hne)) ?_
  rw [← hmod]
  refine returns_ite (fun hlt => ?_) fun hge => ?_
  · have hsmall := x.isNormal.magnitude_lt_of_used_lt y.isNormal hlt
    rw [Nat.mod_eq_of_lt hsmall]
    exact ⟨⟨x.isNormal, rfl⟩, hlast⟩
  · refine (cachedDivRem_spec hlast hne (not_lt.mp hge)).bind ?_
    rintro l ⟨hl, hcache⟩
    exact Returns.bind (QuoRem.remainder_spec hl) fun r hr => ⟨hr, hcache⟩

/-- **What an operator has to answer** for the integers `a` and `b`. -/
def Answers (operator : DivisionOperator) (a b : ℤ) : Outcome → Prop
  | .divisionByZero => b = 0
  | .result r => b ≠ 0 ∧ r.IsNormal ∧ match operator with
      | .truncatingDivide => r.toInt = a.tdiv b
      | .remainder => r.toInt = a - b * a.tdiv b
      | .modulo => ∀ m, m = r.toInt ↔ 0 ≤ m ∧ m < |b| ∧ a ≡ m [ZMOD b]

/-- The modulus is the only number of its residue class below the divisor. -/
theorem eq_emod_iff (hb : b ≠ 0) (m : ℤ) : m = a % b ↔ 0 ≤ m ∧ m < |b| ∧ a ≡ m [ZMOD b] := by
  rw [eq_comm, emod_eq_iff hb, modEq_iff_dvd, abs_eq_natAbs]

/-- **One call**, with any division in the cache. -/
theorem Mode.call_spec (operator : DivisionOperator) (hlast : IsCache heap last) :
    Returns False (mode.call heap operator last x.toRef y.toRef) fun s =>
      Answers operator x.toInt y.toInt s.1 ∧ IsCache heap s.2 := by
  have hzero : y.toInt = 0 ↔ y.used = 0 := y.isNormal.toInt_eq_zero_iff
  unfold Mode.call
  refine returns_ite (fun hused => ⟨hzero.mpr hused, hlast⟩) fun hne => ?_
  have hb : y.toInt ≠ 0 := mt hzero.mp hne
  cases operator with
  | truncatingDivide =>
    refine Returns.bind (div_spec hlast hne) ?_
    rintro ⟨r, last'⟩ ⟨⟨hr, hvalue⟩, hcache⟩
    exact ⟨⟨hb, hr, hvalue⟩, hcache⟩
  | remainder =>
    refine Returns.bind (rem_spec hlast hne) ?_
    rintro ⟨r, last'⟩ ⟨⟨hr, hvalue⟩, hcache⟩
    exact ⟨⟨hb, hr, hvalue.trans (tmod_def _ _)⟩, hcache⟩
  | modulo =>
    refine Returns.bind (rem_spec hlast hne) ?_
    rintro ⟨r, last'⟩ ⟨⟨hr, hvalue⟩, hcache⟩
    refine Returns.bind (toModulo_spec hr y.isNormal hne hvalue) ?_
    rintro r' ⟨hr', hvalue'⟩
    exact ⟨⟨hb, hr', fun m => by rw [hvalue']; exact eq_emod_iff hb m⟩, hcache⟩

end Calls

/-! ## Runs -/

/-- A call of a division operator. -/
structure DivisionCall {ArrayId : Type} (heap : ArrayId → Digits) where
  operator : DivisionOperator
  this : NormalRef heap
  other : NormalRef heap

variable {ArrayId : Type} [DecidableEq ArrayId]

/-- The calls one after the other, from the given values of the static fields on. -/
def Mode.runCalls (mode : Mode) (heap : ArrayId → Digits) :
    Option (LastDivision ArrayId) → List (DivisionCall heap) → Option (List Outcome)
  | _, [] => some []
  | last, c :: calls => do
      let (outcome, last) ← mode.call heap c.operator last c.this.toRef c.other.toRef
      return outcome :: (← mode.runCalls heap last calls)

/-- **Every sequence of divisions is right**, by induction with the cache as invariant. -/
theorem Mode.runCalls_spec {mode : Mode} {heap : ArrayId → Digits}
    {last : Option (LastDivision ArrayId)}
    (calls : List (DivisionCall heap)) (hlast : IsCache heap last) :
    Returns False (mode.runCalls heap last calls) fun outcomes =>
      List.Forall₂ (fun c => Answers c.operator c.this.toInt c.other.toInt) calls outcomes := by
  induction calls generalizing last with
  | nil => exact List.Forall₂.nil
  | cons c calls ih =>
    refine (call_spec c.operator hlast).bind ?_
    rintro ⟨outcome, last'⟩ ⟨hanswer, hcache⟩
    exact (ih hcache).bind fun outcomes houtcomes => List.Forall₂.cons hanswer houtcomes

/-- **The division operators.** In every sequence of calls, whatever arrays are shared and whatever
is cached, a call with a divisor that is not zero returns its truncated quotient, remainder or
modulus. No access is out of range, no assertion fails and every correction loop ends, for digits as
for pairs. -/
theorem division_operators_correct (mode : Mode) (heap : ArrayId → Digits)
    (calls : List (DivisionCall heap)) :
    Returns False (mode.runCalls heap none calls) fun outcomes =>
      List.Forall₂ (fun c => Answers c.operator c.this.toInt c.other.toInt) calls outcomes :=
  runCalls_spec calls fun l hl => absurd hl (Option.not_mem_none l)

end DartVm.BigInt
