import DartVm.Loops.Bounds

/-! # Executions of loops

A `Run` is a finite execution of the function under compilation, block by block, with the value of
every SSA definition after each block.

* `Run.iter`: the iteration of a loop at a time.
* `Denotes`: the inductions of a loop have the values they stand for.
* `Run.value_eq_of_le`, `Run.denote_eq_of_le`: what is defined outside a loop stays the same inside.
* `Run.linearCompare_holds`: a branch that led back into the loop satisfies
  its looping condition. -/

namespace DartVm.Loops

open DartVm.Flow

/-- The value of a comparison of integers. -/
def Token.holds (x y : Int64) : Token → Option Bool
  | eq => some (x == y)
  | ne => some (x != y)
  | lt => some (decide (x < y))
  | gt => some (decide (y < x))
  | lte => some (decide (x ≤ y))
  | gte => some (decide (y ≤ x))
  | _ => none

/-- The outcome of a comparison, where the integer inputs determine it. `TestSmi` tests their
conjunction. -/
def ComparisonInstr.outcome (env : DefId → Int64) (c : ComparisonInstr) : Option Bool :=
  match c.cls, c.inputs with
  | .relationalOp, [l, r] => c.kind.holds (env l) (env r)
  | .equalityCompare, [l, r] => c.kind.holds (env l) (env r)
  | .testSmi, [l, r] => c.kind.holds (env l &&& env r) 0
  | _, _ => none

/-- The comparison is one of integers: `EqualityCompare` or `RelationalOp`. -/
def ComparisonInstr.ComparesIntegers (c : ComparisonInstr) : Prop :=
  c.cls = .equalityCompare ∨ c.cls = .relationalOp

/-- The outcome of a comparison of integers. -/
theorem ComparisonInstr.outcome_of_comparesIntegers {c : ComparisonInstr} {env : DefId → Int64}
    {l r : DefId} (h : c.ComparesIntegers) (hin : c.inputs = [l, r]) :
    c.outcome env = c.kind.holds (env l) (env r) := by
  rcases h with h | h <;> simp [outcome, h, hin]

/-- **SSA form.** Branches stand in their blocks, definitions dominate uses, and the dominator tree
is right. -/
structure Function.WellFormed (F : Function) : Prop where
  branch_block : ∀ {b br}, F.branch b = some br → br.block = b
  dominates : ∀ {a b}, F.dominates a b → F.graph.Dominates a b
  input : ∀ {b br d}, F.branch b = some br → d ∈ br.comparison.inputs →
    F.graph.Dominates (F.defBlock d) b
  original : ∀ d, F.graph.Dominates (F.defBlock (F.original d)) (F.defBlock d)

/-- **Execution** of a function, from its entry. -/
structure Run (F : Function) where
  length : ℕ
  /-- The block executed at each time. -/
  block : ℕ → BlockId
  /-- The values of the definitions after that block. -/
  value : ℕ → DefId → Int64
  /-- Control follows the edges of the flow graph. -/
  trace : IsTrace F.graph block length
  /-- Only the definitions of the executed block get new values. -/
  frame : ∀ t < length, ∀ d, F.defBlock d ≠ block (t + 1) → value (t + 1) d = value t d
  /-- Branches go where their comparison says. -/
  branches : ∀ t < length, ∀ br o, F.branch (block t) = some br →
    br.comparison.outcome (value t) = some o →
    block (t + 1) = if o then br.trueSuccessor else br.falseSuccessor
  /-- Wherever a definition may be used it has the value of the definition it redefines. -/
  redefines : ∀ t ≤ length, ∀ d, F.graph.Dominates (F.defBlock d) (block t) →
    value t d = value t (F.original d)
  arrayLength : ∀ t ≤ length, ∀ d, F.isArrayLength d → F.graph.Dominates (F.defBlock d) (block t) →
    0 ≤ value t d

variable {F : Function}

/-- The iteration of a loop at time `t`. -/
def Run.iter (run : Run F) (loop : LoopInfo) (t : ℕ) : ℕ :=
  iteration loop.header loop.contains run.block t

/-- **Well-formed loop**: a natural loop whose inductions refer to definitions from before it. -/
structure LoopInfo.WellFormed (F : Function) (loop : LoopInfo) : Prop where
  natural : IsNaturalLoop F.graph loop.header {b | loop.contains b}
  own : ∀ b ∈ loop.own, loop.contains b
  objects : ∀ {d d' r r'}, loop.induction d = some r → loop.induction d' = some r' →
    r.addr = r'.addr → r = r'
  outside : ∀ {d r}, loop.induction d = some r → ∀ e ∈ r.var.defs, ¬ loop.contains (F.defBlock e)
  before : ∀ {d r}, loop.induction d = some r → ∀ e ∈ r.var.defs,
    F.graph.Dominates (F.defBlock e) loop.header

/-- **The inductions of a loop are right**: where a definition may be used in the loop, it has the
value of its induction in the current iteration. -/
def Denotes (run : Run F) (loop : LoopInfo) : Prop :=
  ∀ ⦃d r⦄, loop.induction d = some r → ∀ t ≤ run.length, loop.contains (run.block t) →
    F.graph.Dominates (F.defBlock d) (run.block t) →
    run.value t d = r.var.denote (run.value t) (run.iter loop t)

namespace Run

variable {run : Run F} {loop : LoopInfo} {s t : ℕ}

section

variable (ht : t ≤ run.length) (hst : s ≤ t)
  (hin : ∀ r, s < r → r ≤ t → loop.contains (run.block r))
include ht hst hin

/-- While control is inside a loop, a definition outside keeps its value. -/
theorem value_eq_of_le {d : DefId}
    (hd : ¬ loop.contains (F.defBlock d)) : run.value t d = run.value s d := by
  induction t, hst using Nat.le_induction with
  | base => rfl
  | succ t hst ih =>
    rw [run.frame t (by omega) d, ih (by omega) fun r h1 h2 => hin r h1 (by omega)]
    intro heq
    exact hd (heq ▸ hin (t + 1) (by omega) le_rfl)

/-- An invariant of a loop has the same value throughout an iteration. -/
theorem denote_eq_of_le {x : Invariant}
    (hx : ∀ d, x.def_ = some d → ¬ loop.contains (F.defBlock d)) :
    x.denote (run.value t) = x.denote (run.value s) :=
  Invariant.denote_congr fun d hd => value_eq_of_le ht hst hin (hx d hd)

end

/-- Between two visits of the header a run that is in the loop has not left it. -/
theorem contains_of_le (hwf : loop.WellFormed F) (ht : t ≤ run.length)
    (hmem : loop.contains (run.block t))
    (hne : ∀ r, s < r → r ≤ t → run.block r ≠ loop.header) :
    ∀ r, s ≤ r → r ≤ t → loop.contains (run.block r) := fun _ h1 h2 =>
  hwf.natural.mem_of_le run.trace ht h2 hmem fun q hq1 hq2 => hne q (by omega) hq2

end Run

/-! ## Branches that stay in the loop -/

/-- A negated comparison has the opposite outcome. -/
theorem Token.holds_negateComparison (k : Token) (x y : Int64) :
    k.negateComparison.holds x y = (k.holds x y).map not := by
  cases k <;> simp [negateComparison, holds, bne, ← decide_not]

/-- A flipped comparison of exchanged operands has the same outcome. -/
theorem Token.holds_flipComparison (k : Token) (x y : Int64) :
    k.flipComparison.holds y x = k.holds x y := by
  cases k <;> simp [flipComparison, holds, bne_comm, Bool.beq_comm]

variable {loop : LoopInfo} {br : BranchInstr} {c : LinearCompare} {run : Run F} {s : ℕ}

/-- What `linearCompare` has found: a linear induction of constant stride, compared with an
invariant. -/
theorem LoopInfo.linearCompare_cases (h : loop.linearCompare F br = some c) :
    (∃ next, c.x.var = .linear c.initial next ∧ next.isConstant ∧ next.offset = c.stride) ∧
    ∃ l r kind ry, br.comparison.inputs = [l, r] ∧ loop.loopingCondition br = some kind ∧
      ry.var = .invariant c.y ∧
      (loop.induction (F.original l) = some c.x ∧ loop.induction (F.original r) = some ry ∧
          c.cmp = kind ∨
        loop.induction (F.original r) = some c.x ∧ loop.induction (F.original l) = some ry ∧
          c.cmp = kind.flipComparison) := by
  unfold linearCompare at h
  split at h
  case h_2 => cases h
  case h_1 l r hin =>
    simp only [Option.bind_eq_bind, Option.bind_eq_some_iff] at h
    obtain ⟨kind, hkind, x, hx, y, hy, hor⟩ := h
    unfold orient at hor
    split at hor
    · next hxv hyv =>
      split_ifs at hor with hconst
      cases hor
      exact ⟨⟨_, hxv, hconst, rfl⟩, l, r, kind, y, hin, hkind, hyv, .inl ⟨hx, hy, rfl⟩⟩
    · next hxv hyv =>
      split_ifs at hor with hconst
      cases hor
      exact ⟨⟨_, hyv, hconst, rfl⟩, l, r, kind, x, hin, hkind, hxv, .inr ⟨hy, hx, rfl⟩⟩
    · cases hor

/-- A branch that has been taken and led back into the loop satisfies its looping condition. -/
theorem Run.loopingCondition_holds {kind : Token} {l r : DefId}
    (hin : br.comparison.inputs = [l, r]) (hkind : loop.loopingCondition br = some kind)
    (hint : br.comparison.ComparesIntegers) (hs : s < run.length)
    (hbr : F.branch (run.block s) = some br) (hcont : loop.contains (run.block (s + 1))) :
    kind.holds (run.value s l) (run.value s r) ≠ some false := by
  have hgoes := run.branches s hs br
  rw [ComparisonInstr.outcome_of_comparesIntegers hint hin] at hgoes
  unfold LoopInfo.loopingCondition at hkind
  intro hfalse
  split_ifs at hkind with htrue hneg
  · -- The loop continues at the true successor, but the comparison is false.
    cases hkind
    simp only [Bool.and_eq_true, Bool.not_eq_true'] at htrue
    have hsucc := hgoes false hbr hfalse
    simp only [Bool.false_eq_true, if_false] at hsucc
    rw [hsucc, htrue.2] at hcont
    cases hcont
  · cases hkind
    simp only [Bool.and_eq_true, Bool.not_eq_true'] at hneg
    rw [Token.holds_negateComparison, Option.map_eq_some_iff] at hfalse
    obtain ⟨o, ho, hnot⟩ := hfalse
    have hsucc := hgoes o hbr ho
    have ho' : o = true := by simpa using hnot
    rw [ho', if_pos rfl] at hsucc
    rw [hsucc, hneg.1] at hcont
    cases hcont

/-- The same for a linear comparison, in terms of what the inductions denote. -/
theorem Run.linearCompare_holds (hF : F.WellFormed)
    (hden : Denotes run loop) (hc : loop.linearCompare F br = some c)
    (hint : br.comparison.ComparesIntegers) (hs : s < run.length)
    (hbr : F.branch (run.block s) = some br) (hmem : loop.contains (run.block s))
    (hcont : loop.contains (run.block (s + 1))) :
    c.cmp.holds (c.x.var.denote (run.value s) (run.iter loop s)) (c.y.denote (run.value s)) ≠
      some false := by
  obtain ⟨-, l, r, kind, ry, hin, hkind, hry, hcase⟩ := loop.linearCompare_cases hc
  have hholds := run.loopingCondition_holds hin hkind hint hs hbr hcont
  -- Operands have the value of their original definition, which is what its induction denotes.
  have hval : ∀ d ∈ br.comparison.inputs, ∀ ref, loop.induction (F.original d) = some ref →
      run.value s d = ref.var.denote (run.value s) (run.iter loop s) := by
    intro d hd ref href
    have hdom := hF.input hbr hd
    rw [run.redefines s hs.le d hdom]
    exact hden href s hs.le hmem ((hF.original d).trans hdom)
  have hl : l ∈ br.comparison.inputs := by simp [hin]
  have hr : r ∈ br.comparison.inputs := by simp [hin]
  rcases hcase with ⟨hx, hy, hcmp⟩ | ⟨hx, hy, hcmp⟩
  · rw [hval l hl _ hx, hval r hr _ hy, hry] at hholds
    rw [hcmp]
    exact hholds
  · rw [hval r hr _ hx, hval l hl _ hy, hry, ← Token.holds_flipComparison] at hholds
    rw [hcmp]
    exact hholds

end DartVm.Loops
