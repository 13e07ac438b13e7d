import Mathlib.Data.Int.Order.Basic

/-! # Induction variables

`InductionVar` describes how a definition evolves over the iterations of one loop
(`compiler/backend/loops.h`).  The C++ class asserts that initial values, and strides of linear and
periodic inductions, are invariant; here the types say so.

* `denote env k`: the value in iteration `k`, in 64-bit wrap-around arithmetic, for the values `env`
  of the surrounding code.
* `add`, `sub`, `mul`: the symbolic arithmetic of the analysis.
* `isEqual`: the comparison of invariants. -/

namespace DartVm.Loops

/-- An SSA definition, named by its `ssa_temp_index`. -/
abbrev DefId := ℕ

/-- **Invariant** `offset + mult * def`.  Without a definition it is a constant. -/
structure Invariant where
  /-- The constant part. -/
  offset : Int64
  /-- The factor of the definition. -/
  mult : Int64
  /-- The definition, `nullptr` for a constant. -/
  def_ : Option DefId
deriving DecidableEq

/-- **Induction variable** of a particular loop. -/
inductive InductionVar where
  | invariant (x : Invariant)
  /-- `initial + next * i` in iteration `i`. -/
  | linear (initial next : Invariant)
  /-- `initial` once, then what `next` was one iteration before. -/
  | wrapAround (initial : Invariant) (next : InductionVar)
  /-- Alternates `initial` and `next`. -/
  | periodic (initial next : Invariant)
deriving DecidableEq

/-! ## Denotation -/

/-- The value of an invariant. -/
def Invariant.denote (env : DefId → Int64) (x : Invariant) : Int64 :=
  x.offset + x.mult * x.def_.elim 0 env

/-- The value of an induction variable in iteration `k`. -/
def InductionVar.denote (env : DefId → Int64) : InductionVar → ℕ → Int64
  | invariant x, _ => x.denote env
  | linear initial next, k => initial.denote env + Int64.ofNat k * next.denote env
  | wrapAround initial _, 0 => initial.denote env
  | wrapAround _ next, k + 1 => next.denote env k
  | periodic initial next, k => if k % 2 = 0 then initial.denote env else next.denote env

namespace Invariant

variable {env env' : DefId → Int64} {x y z : Invariant}

/-- `InductionVar::InductionVar(offset)`: a constant. -/
def const (c : Int64) : Invariant := ⟨c, 0, none⟩

/-- `InductionVar::IsConstant`: the multiplier of the definition is zero. -/
def isConstant (x : Invariant) : Bool := x.mult == 0

/-- `InductionVar::IsEqual` on invariants. -/
def isEqual (x y : Invariant) : Bool :=
  x.offset == y.offset && x.mult == y.mult && (x.mult == 0 || x.def_ == y.def_)

/-- `InductionVarAnalysis::Add` on invariants: only for the same or just one definition. -/
def add (x y : Invariant) : Option Invariant :=
  if x.def_ = y.def_ then some ⟨x.offset + y.offset, x.mult + y.mult, x.def_⟩
  else if y.mult = 0 then some ⟨x.offset + y.offset, x.mult, x.def_⟩
  else if x.mult = 0 then some ⟨x.offset + y.offset, y.mult, y.def_⟩
  else none

/-- `InductionVarAnalysis::Sub` on invariants. -/
def sub (x y : Invariant) : Option Invariant :=
  if x.def_ = y.def_ then some ⟨x.offset - y.offset, x.mult - y.mult, x.def_⟩
  else if y.mult = 0 then some ⟨x.offset - y.offset, x.mult, x.def_⟩
  else if x.mult = 0 then some ⟨x.offset - y.offset, -y.mult, y.def_⟩
  else none

/-- `InductionVarAnalysis::Mul` of an invariant by the constant `c`. -/
def mul (c : Int64) (y : Invariant) : Invariant := ⟨c * y.offset, c * y.mult, y.def_⟩

@[simp]
theorem denote_const (c : Int64) : (const c).denote env = c := by
  simp [const, denote]

/-- A constant invariant has its offset as value. -/
theorem denote_of_isConstant (h : x.isConstant) : x.denote env = x.offset := by
  have hm : x.mult = 0 := by simpa [isConstant] using h
  simp [denote, hm]

/-- The value depends on the one definition of the invariant. -/
theorem denote_congr (h : ∀ d, x.def_ = some d → env d = env' d) :
    x.denote env = x.denote env' := by
  cases hdef : x.def_ with
  | none => simp [denote, hdef]
  | some d => simp [denote, hdef, h d hdef]

/-- The sum of two invariants has the sum of their values. -/
theorem denote_add (h : x.add y = some z) : z.denote env = x.denote env + y.denote env := by
  unfold add at h
  split_ifs at h with hdef hy hx <;> cases h
  · simp only [denote, hdef]
    grind
  · simp only [denote, hy]
    grind
  · simp only [denote, hx]
    grind

/-- The difference of two invariants has the difference of their values. -/
theorem denote_sub (h : x.sub y = some z) : z.denote env = x.denote env - y.denote env := by
  unfold sub at h
  split_ifs at h with hdef hy hx <;> cases h
  · simp only [denote, hdef]
    grind
  · simp only [denote, hy]
    grind
  · simp only [denote, hx]
    grind

/-- Multiplying an invariant multiplies its value. -/
theorem denote_mul (c : Int64) (y : Invariant) : (mul c y).denote env = c * y.denote env := by
  simp only [denote, mul]
  grind

/-- Adding a constant always succeeds and keeps the definition, unless there was none to keep. -/
theorem add_const (x : Invariant) (c : Int64) :
    ∃ z, x.add (const c) = some z ∧ (z.def_ = x.def_) := by
  unfold add const
  split_ifs with hdef h0 <;> first | exact ⟨_, rfl, rfl⟩ | exact absurd rfl h0

/-- A constant can always be taken off. -/
theorem sub_const (x : Invariant) (c : Int64) :
    ∃ z, x.sub (const c) = some z ∧ (z.def_ = x.def_) := by
  unfold sub const
  split_ifs with hdef h0 <;> first | exact ⟨_, rfl, rfl⟩ | exact absurd rfl h0

end Invariant

namespace InductionVar

/-- `InductionVar::IsInvariant`. -/
def isInvariant : InductionVar → Bool
  | invariant _ => true
  | _ => false

/-! ## Definitions an induction variable refers to -/

/-- The definitions that occur in an induction variable. -/
def defs : InductionVar → List DefId
  | invariant x => x.def_.toList
  | linear i n => i.def_.toList ++ n.def_.toList
  | wrapAround i n => i.def_.toList ++ n.defs
  | periodic i n => i.def_.toList ++ n.def_.toList

end InductionVar

end DartVm.Loops
