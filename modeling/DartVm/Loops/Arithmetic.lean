import DartVm.Loops.InductionVar

/-! # Symbolic arithmetic on induction variables

`InductionVarAnalysis::Add`, `Sub` and `Mul` apply one operation to every invariant of an induction,
and possibly another one to the stride of a linear one; `mapM` is that pattern.  `none` is the
source's `nullptr`.

* `denote_mapM`: mapping over an induction.
* `denote_arithmetic`: sums, differences and products, in every iteration. -/

namespace DartVm.Loops.InductionVar

open Invariant

variable {env : DefId → Int64} {x y z : InductionVar} {k : ℕ} {c : Int64}

/-- Applies `f` to the values of an induction and `g` to the stride of a linear one. -/
def mapM (f g : Invariant → Option Invariant) : InductionVar → Option InductionVar
  | invariant x => (f x).map invariant
  | linear initial next => do
    let i ← f initial
    let n ← g next
    pure (linear i n)
  | wrapAround initial next => do
    let i ← f initial
    let n ← mapM f g next
    pure (wrapAround i n)
  | periodic initial next => do
    let i ← f initial
    let n ← f next
    pure (periodic i n)

/-- `InductionVarAnalysis::Add`: the sum of two induction variables, where it is one. -/
def add : InductionVar → InductionVar → Option InductionVar
  | invariant x, y => y.mapM (x.add ·) some
  | x, invariant y => x.mapM (·.add y) some
  | linear i n, linear i' n' => do
    let i ← i.add i'
    let n ← n.add n'
    pure (linear i n)
  | _, _ => none

/-- `InductionVarAnalysis::Sub`: the difference, which negates what is not invariant on the
right. -/
def sub : InductionVar → InductionVar → Option InductionVar
  | invariant x, y => y.mapM (x.sub ·) ((Invariant.const 0).sub ·)
  | x, invariant y => x.mapM (·.sub y) some
  | linear i n, linear i' n' => do
    let i ← i.sub i'
    let n ← n.sub n'
    pure (linear i n)
  | _, _ => none

/-- `InductionVar::IsConstant`, with the constant. -/
def constant? : InductionVar → Option Int64
  | invariant x => if x.isConstant then some x.offset else none
  | _ => none

/-- Multiplies an induction by a constant. -/
def scale (c : Int64) : InductionVar → Option InductionVar :=
  mapM (fun x => some (.mul c x)) (fun x => some (.mul c x))

/-- `InductionVarAnalysis::Mul`: a constant, on either side, applies to any induction. -/
def mul (x y : InductionVar) : Option InductionVar :=
  match x.constant?, y.constant? with
  | some c, _ => y.scale c
  | none, some c => x.scale c
  | none, none => none

/-! ## Denotation -/

/-- A pair that has been computed was computed part by part. -/
theorem exists_of_bind {α β γ : Type} {a : Option α} {b : Option β} {c : α → β → γ} {r : γ}
    (h : (do let i ← a; let n ← b; pure (c i n)) = some r) :
    ∃ i, a = some i ∧ ∃ n, b = some n ∧ c i n = r := by
  simpa [Option.bind_eq_some_iff] using h

section

variable {f : Invariant → Option Invariant} {F : Int64 → Int64}
  (hf : ∀ {x z}, f x = some z → z.denote env = F (x.denote env))
include hf

/-- **Mapping over an induction**: when `f` computes `F` on values and `g` adapts strides, the
result is `F` of the original in every iteration. -/
theorem denote_mapM {g : Invariant → Option Invariant} {G : Int64 → Int64}
    (hg : ∀ {x z}, g x = some z → z.denote env = G (x.denote env))
    (hlin : ∀ a k n, F (a + k * n) = F a + k * G n) (h : x.mapM f g = some z) :
    z.denote env k = F (x.denote env k) := by
  induction x generalizing z k with
  | invariant x =>
    obtain ⟨w, hw, rfl⟩ := Option.map_eq_some_iff.mp h
    exact hf hw
  | linear i n =>
    obtain ⟨i', hi, n', hn, rfl⟩ := exists_of_bind h
    simp only [denote, hf hi, hg hn, hlin]
  | wrapAround i n ih =>
    obtain ⟨i', hi, n', hn, rfl⟩ := exists_of_bind h
    cases k with
    | zero => exact hf hi
    | succ k => exact ih hn
  | periodic i n =>
    obtain ⟨i', hi, n', hn, rfl⟩ := exists_of_bind h
    simp only [denote]
    split_ifs
    · exact hf hi
    · exact hf hn

/-- A map over the initial value commutes with the iterations. -/
theorem denote_mapM_some (hlin : ∀ a k n, F (a + k * n) = F a + k * n)
    (h : x.mapM f some = some z) :
    z.denote env k = F (x.denote env k) := by
  refine denote_mapM (G := id) hf ?_ hlin h
  rintro x z ⟨⟩
  rfl

end

/-- The sum of two variables has the sum of their values. -/
theorem denote_add (h : x.add y = some z) :
    z.denote env k = x.denote env k + y.denote env k := by
  -- An invariant shifts the other operand; two linear inductions add up componentwise.
  unfold add at h
  split at h
  · exact denote_mapM_some (F := (_ + ·)) denote_add (by grind) h
  · exact denote_mapM_some (F := (· + _)) denote_add (by grind) h
  · obtain ⟨i, hi, n, hn, rfl⟩ := exists_of_bind h
    simp only [denote, denote_add hi, denote_add hn]
    grind
  · cases h

/-- The difference of two variables has the difference of their values. -/
theorem denote_sub (h : x.sub y = some z) :
    z.denote env k = x.denote env k - y.denote env k := by
  unfold sub at h
  split at h
  · refine denote_mapM (F := (_ - ·)) (G := (-·)) denote_sub (fun hz => ?_) (by grind) h
    rw [denote_sub hz, denote_const]
    grind
  · exact denote_mapM_some (F := (· - _)) denote_sub (by grind) h
  · obtain ⟨i, hi, n, hn, rfl⟩ := exists_of_bind h
    simp only [denote, denote_sub hi, denote_sub hn]
    grind
  · cases h

/-- A constant variable has its constant as value. -/
theorem denote_of_constant? (h : x.constant? = some c) : x.denote env k = c := by
  cases x with
  | invariant i =>
    simp only [constant?] at h
    split_ifs at h with hconst
    cases h
    exact denote_of_isConstant hconst
  | _ => cases h

/-- Scaling scales the value of every iteration. -/
theorem denote_scale (h : x.scale c = some z) :
    z.denote env k = c * x.denote env k := by
  have hmul : ∀ {a w : Invariant}, some (Invariant.mul c a) = some w →
      w.denote env = c * a.denote env := by
    rintro a w ⟨⟩
    exact Invariant.denote_mul c a
  apply denote_mapM (F := fun v => c * v) (G := fun v => c * v) hmul hmul _ h
  grind

/-- The product of two variables has the product of their values. -/
theorem denote_mul (h : x.mul y = some z) :
    z.denote env k = x.denote env k * y.denote env k := by
  unfold mul at h
  split at h
  · next c hx =>
    rw [denote_scale h, denote_of_constant? hx]
  · next c _ hy =>
    rw [denote_scale h, denote_of_constant? hy]
    grind
  · cases h

/-- **The arithmetic is a homomorphism**: where `add`, `sub` or `mul` has a result, it denotes the
sum, difference or product modulo 2^64 in every iteration. -/
theorem denote_arithmetic (x y z : InductionVar) (env : DefId → Int64) (k : ℕ) :
    (x.add y = some z → z.denote env k = x.denote env k + y.denote env k) ∧
      (x.sub y = some z → z.denote env k = x.denote env k - y.denote env k) ∧
      (x.mul y = some z → z.denote env k = x.denote env k * y.denote env k) :=
  ⟨denote_add, denote_sub, denote_mul⟩

/-- One minus a wrap-around induction with a linear rest. -/
theorem denote_arithmetic_wrapAround : ∃ x y z, InductionVar.sub x y = some z ∧
    z.denote (fun _ => 5) 2 = x.denote (fun _ => 5) 2 - y.denote (fun _ => 5) 2 :=
  ⟨invariant (const 1), wrapAround ⟨0, 1, some 0⟩ (linear (const 2) (const 3)), _, rfl,
    (denote_arithmetic _ _ _ _ 2).2.1 rfl⟩

end DartVm.Loops.InductionVar
