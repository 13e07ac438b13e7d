import DartVm.Loops.Recorded

/-! # Inductions under the control of a branch

A recorded bound says something about an execution once its branch has been passed.  `BoundHolds` is
what this needs: the branch compares integers, and is passed in every iteration before the induction
leaves its bound.  Then the induction never wraps around, and wherever the branch dominates, it is
strictly inside the bound.

* `passed`: what passing the branch says.
* `inBound`: the induction does not wrap around.
* `bounded`: it is strictly inside the bound where the branch dominates. -/

namespace DartVm.Loops

open DartVm.Flow Option Invariant

variable {F : Function} {run : Run F} {loop : LoopInfo} {outers : List LoopInfo}

/-- The definition of `x` is computed before the loop. -/
def Before (F : Function) (loop : LoopInfo) (x : Invariant) : Prop :=
  ∀ d, x.def_ = some d → ¬ loop.contains (F.defBlock d) ∧
    F.graph.Dominates (F.defBlock d) loop.header

variable {x : Invariant} {t : ℕ}

/-- The array lengths in an invariant of the loop are not negative while it runs. -/
theorem Before.lengthsNonneg (hx : Before F loop x) (hwf : loop.WellFormed F)
    (ht : t ≤ run.length) (hmem : loop.contains (run.block t)) :
    LengthsNonneg F (run.value t) x := by
  intro d hd hlen
  have hdom := (hx d hd).2.trans (hwf.natural.dominates _ hmem)
  exact Int64.le_iff_toInt_le.mp (run.arrayLength t ht d hlen hdom)

/-- What is computed before a loop keeps its value throughout an iteration. -/
theorem Before.denote_eq {s t : ℕ} (hx : Before F loop x) (hwf : loop.WellFormed F)
    (ht : t ≤ run.length) (hst : s ≤ t) (hmem : loop.contains (run.block t))
    (hne : ∀ r, s < r → r ≤ t → run.block r ≠ loop.header) :
    x.denote (run.value t) = x.denote (run.value s) :=
  run.denote_eq_of_le ht hst
    (fun r h1 h2 => run.contains_of_le hwf ht hmem hne r h1.le h2) fun d hd => (hx d hd).1

/-- What is computed before a loop keeps its value in a step inside the loop. -/
theorem Before.denote_succ (hx : Before F loop x) (ht : t < run.length)
    (hmem : loop.contains (run.block (t + 1))) :
    x.denote (run.value (t + 1)) = x.denote (run.value t) := by
  refine run.denote_eq_of_le ht (Nat.le_succ t) (fun r h1 h2 => ?_) fun d hd => (hx d hd).1
  obtain rfl : r = t + 1 := by omega
  exact hmem

/-- **The limits from outer loops are right** at the positions that dominate the block `B` of a
check: what `invariantBounds` computes bounds an invariant of `loop` wherever the position is
executed, and is an invariant of `loop`. -/
def LimitsSound (run : Run F) (loop : LoopInfo) (outers : List LoopInfo) (B : BlockId) : Prop :=
  ∀ {pos x l}, loop.contains pos.block → F.graph.Dominates pos.block B → Before F loop x →
    invariantBounds .checked F outers pos x = some (some l) → Before F loop l.1 ∧
      Before F loop l.2 ∧
    ∀ t ≤ run.length, run.block t = pos.block →
      Within (run.value t) l (x.denote (run.value t)).toInt

variable {br : BranchInstr} {B : BlockId}

section

variable {s : ℕ} (hlim : LimitsSound run loop outers B) (hmem : loop.contains br.block)
  (hB : F.graph.Dominates br.block B) (hx : Before F loop x) (hs : s ≤ run.length)
  (hblock : run.block s = br.block)
include hlim hmem hB hx hs hblock

/-- A limit that can be made exclusive upwards is not the greatest integer. -/
theorem LimitsSound.lt_max (hwf : loop.WellFormed F)
    (h : canBeMadeExclusive .checked F outers x br false = some true) :
    (x.denote (run.value s)).toInt < 2 ^ 63 - 1 := by
  obtain ⟨l, hl, hres⟩ := bind_eq_some_iff.mp h
  cases l with
  | none => cases hres
  | some l =>
    obtain ⟨-, hmax, hwithin⟩ := hlim hmem hB hx hl
    have hle := (hwithin s hs hblock).2
    simp only [Bool.false_eq_true, if_false] at hres
    split_ifs at hres with hconst
    · simp only [Option.pure_def, some.injEq, decide_eq_true_eq] at hres
      have hlt := Int64.lt_iff_toInt_lt.mp hres
      rw [denote_of_isConstant hconst] at hle
      have : Int64.maxValue.toInt = 2 ^ 63 - 1 := by decide
      omega
    · simp only [Option.pure_def, some.injEq, Bool.and_eq_true, decide_eq_true_eq] at hres
      obtain ⟨len, hlen, hden⟩ :=
        denote_of_isArrayLengthOffset hres.1 (hmax.lengthsNonneg hwf hs (hblock ▸ hmem))
      have hlt : l.2.offset.toInt < 0 := Int64.lt_iff_toInt_lt.mp hres.2
      rw [hden, toInt_add_of_nonpos hlt.le hlen] at hle
      have := len.toInt_lt
      omega

/-- A limit that can be made exclusive downwards is not the least integer. -/
theorem LimitsSound.min_lt (h : canBeMadeExclusive .checked F outers x br true = some true) :
    -2 ^ 63 < (x.denote (run.value s)).toInt := by
  obtain ⟨l, hl, hres⟩ := bind_eq_some_iff.mp h
  cases l with
  | none => cases hres
  | some l =>
    have hle := ((hlim hmem hB hx hl).2.2 s hs hblock).1
    simp only [if_true, Option.pure_def, some.injEq, Bool.and_eq_true, decide_eq_true_eq] at hres
    have hlt := Int64.lt_iff_toInt_lt.mp hres.2
    rw [denote_of_isConstant hres.1] at hle
    have : Int64.minValue.toInt = -2 ^ 63 := by decide
    omega

end

/-! ## Passing a branch -/

/-- `x` has not reached `limit`, walking in direction `stride`. -/
def Strict (stride : Int64) (x limit : ℤ) : Prop :=
  stride = 1 ∧ x < limit ∨ stride = -1 ∧ limit < x

/-- The value of the induction of a comparison in iteration `k`, if it does not wrap around. -/
def LinearCompare.exact (c : LinearCompare) (env : DefId → Int64) (k : ℕ) : ℤ :=
  (c.initial.denote env).toInt + k * c.stride.toInt

/-- The compared variable has its exact value, wrapped around. -/
theorem LinearCompare.toInt_denote {c : LinearCompare} {env : DefId → Int64} {k : ℕ}
    (h : loop.linearCompare F br = some c) :
    (c.x.var.denote env k).toInt = wrap64 (c.exact env k) := by
  obtain ⟨⟨next, hvar, hconst, hstride⟩, -⟩ := LoopInfo.linearCompare_cases h
  rw [hvar, exact, ← hstride, ← toInt_add_ofNat_mul, InductionVar.denote,
    denote_of_isConstant hconst]

/-- The definitions of a recorded variable are computed before the loop. -/
theorem LoopInfo.WellFormed.before_of_defs (hwf : loop.WellFormed F) {d : DefId} {r : InductionRef}
    (hr : loop.induction d = some r) (hdefs : ∀ e, x.def_ = some e → e ∈ r.var.defs) :
    Before F loop x :=
  fun e he => ⟨hwf.outside hr e (hdefs e he), hwf.before hr e (hdefs e he)⟩

namespace Recorded

variable {addr : ℕ} {b : Bound} {c : LinearCompare} {s t : ℕ}
  (hrec : Recorded F outers loop addr b c)

section

include hrec

/-- A recorded bound comes from a branch of the loop itself. -/
theorem branch_eq (hF : F.WellFormed) :
    b.branch.block ∈ loop.own ∧ F.branch b.branch.block = some b.branch := by
  obtain ⟨blk, hown, hblk⟩ := List.mem_filterMap.mp hrec.own
  have := hF.branch_block hblk
  subst this
  exact ⟨hown, hblk⟩

/-- The compared variable is a recorded one. -/
theorem induction_eq :
    ∃ d, loop.induction d = some c.x := by
  obtain ⟨-, l, r, kind, ry, -, -, -, hcase⟩ := LoopInfo.linearCompare_cases hrec.compare
  rcases hcase with ⟨hx, -, -⟩ | ⟨hx, -, -⟩
  · exact ⟨_, hx⟩
  · exact ⟨_, hx⟩

/-- For `!=` the limit is a constant that the induction starts on the right side of. -/
theorem ne_constant (hne : c.cmp = .ne) :
    c.initial.isConstant ∧ b.limit.isConstant ∧
      Strict c.stride c.initial.offset.toInt b.limit.offset.toInt := by
  rcases strictLimit_cases hrec.limit with
    ⟨h, -⟩ | ⟨h, -⟩ | ⟨h, -⟩ | ⟨h, -⟩ | ⟨-, hlimit, hinit, hconst, hstart⟩
  · rw [hne] at h; cases h
  · rw [hne] at h; cases h
  · rw [hne] at h; cases h
  · rw [hne] at h; cases h
  · refine ⟨hinit, hlimit ▸ hconst, ?_⟩
    rw [hlimit]
    rcases hstart with ⟨hs, hlt⟩ | ⟨hs, hlt⟩
    · exact .inl ⟨hs, Int64.lt_iff_toInt_lt.mp hlt⟩
    · exact .inr ⟨hs, Int64.lt_iff_toInt_lt.mp hlt⟩

variable (hwf : loop.WellFormed F)
include hwf

/-- What it is compared with is computed before the loop. -/
theorem before_y : Before F loop c.y := by
  obtain ⟨-, l, r, kind, ry, -, -, hy, hcase⟩ := LoopInfo.linearCompare_cases hrec.compare
  obtain ⟨e, he⟩ : ∃ e, loop.induction e = some ry := by
    rcases hcase with ⟨-, hr, -⟩ | ⟨-, hr, -⟩
    · exact ⟨_, hr⟩
    · exact ⟨_, hr⟩
  exact hwf.before_of_defs he fun d hd => by simp [hy, InductionVar.defs, hd]

/-- Its initial value is computed before the loop. -/
theorem before_initial : Before F loop c.initial := by
  obtain ⟨e, he⟩ := hrec.induction_eq
  obtain ⟨⟨next, hvar, -⟩, -⟩ := LoopInfo.linearCompare_cases hrec.compare
  exact hwf.before_of_defs he fun d hd => by simp [hvar, InductionVar.defs, hd]

/-- The recorded limit is computed before the loop. -/
theorem before_limit :
    Before F loop b.limit := by
  have hy := hrec.before_y hwf
  have hdef : b.limit.def_ = c.y.def_ := by
    rcases strictLimit_cases hrec.limit with
      ⟨-, -, h⟩ | ⟨-, -, h⟩ | ⟨-, -, -, h⟩ | ⟨-, -, -, h⟩ | ⟨-, h, -⟩
    · rw [h]
    · rw [h]
    · obtain ⟨z, hz, hdef⟩ := c.y.add_const 1
      rw [h] at hz
      cases hz
      exact hdef
    · obtain ⟨z, hz, hdef⟩ := c.y.sub_const 1
      rw [h] at hz
      cases hz
      exact hdef
    · rw [h]
  intro d hd
  exact hy d (hdef ▸ hd)

variable (hF : F.WellFormed) (hden : Denotes run loop) (hlim : LimitsSound run loop outers B)
  (hB : F.graph.Dominates b.branch.block B) (hint : b.branch.comparison.ComparesIntegers)
include hF hden hlim hB hint

/-- **Passing the branch.** Back in the loop, the induction was strictly inside the bound or, for
`!=`, different from it. -/
theorem passed (hs : s < run.length)
    (hblock : run.block s = b.branch.block) (hcont : loop.contains (run.block (s + 1))) :
    (c.cmp ≠ .ne ∧ Strict c.stride (c.x.var.denote (run.value s) (run.iter loop s)).toInt
      (b.limit.denote (run.value s)).toInt) ∨
    (c.cmp = .ne ∧ (c.x.var.denote (run.value s) (run.iter loop s)).toInt ≠
      (b.limit.denote (run.value s)).toInt) := by
  obtain ⟨hown, hbr⟩ := hrec.branch_eq hF
  have hmem : loop.contains b.branch.block := hwf.own _ hown
  have hholds := run.linearCompare_holds hF hden hrec.compare hint hs (by rw [hblock, hbr])
    (by rw [hblock]; exact hmem) hcont
  have hy := hrec.before_y hwf
  -- For `<=` and `>=` the limit is one further, which the outer bounds show not to wrap.
  rcases strictLimit_cases hrec.limit with ⟨hcmp, hstride, h⟩ | ⟨hcmp, hstride, h⟩ |
    ⟨hcmp, hstride, hex, h⟩ | ⟨hcmp, hstride, hex, h⟩ | ⟨hcmp, h, -⟩ <;>
    simp only [hcmp, Token.holds, ne_eq, some.injEq, decide_eq_false_iff_not, not_not,
      bne_eq_false_iff_eq] at hholds
  · left
    exact ⟨by simp [hcmp], .inl ⟨hstride, h ▸ Int64.lt_iff_toInt_lt.mp hholds⟩⟩
  · left
    exact ⟨by simp [hcmp], .inr ⟨hstride, h ▸ Int64.lt_iff_toInt_lt.mp hholds⟩⟩
  · left
    have hle := Int64.le_iff_toInt_le.mp hholds
    have hlt := hlim.lt_max hmem hB hy hs.le hblock hwf hex
    have hmin := (c.y.denote (run.value s)).le_toInt
    refine ⟨by simp [hcmp], .inl ⟨hstride, ?_⟩⟩
    have hone : (1 : Int64).toInt = 1 := by decide
    rw [denote_add h, denote_const,
      toInt_add_of_isInt64 (isInt64_iff.mpr (by omega))]
    omega
  · left
    have hle := Int64.le_iff_toInt_le.mp hholds
    have hlt := hlim.min_lt hmem hB hy hs.le hblock hex
    have hmax := (c.y.denote (run.value s)).toInt_lt
    refine ⟨by simp [hcmp], .inr ⟨hstride, ?_⟩⟩
    have hone : (1 : Int64).toInt = 1 := by decide
    rw [denote_sub h, denote_const,
      toInt_sub_of_isInt64 (isInt64_iff.mpr (by omega))]
    omega
  · right
    refine ⟨hcmp, fun heq => hholds ?_⟩
    rw [← h]
    exact Int64.toInt_inj.mp heq

end

end Recorded

/-! ## Bounds that hold -/

/-- The branch is passed in every iteration that comes to an end. -/
def PassedInEveryIteration (run : Run F) (loop : LoopInfo) (br : BranchInstr) : Prop :=
  ∀ t < run.length, loop.contains (run.block t) → run.block (t + 1) = loop.header →
    VisitedInIteration run.block loop.header br.block t

/-- The branch at the end of the header is passed in every iteration. -/
theorem passedInEveryIteration_of_header (hwf : loop.WellFormed F)
    (hbr : br.block = loop.header) : PassedInEveryIteration run loop br := by
  intro t ht hmem _
  rw [hbr]
  exact hwf.natural.visitedInIteration run.trace ht.le hmem hwf.natural.header_mem
    (hwf.natural.dominates _ hmem)

/-- **What a recorded bound needs to mean something**: the branch compares integers, and is passed
in every iteration or, for an ordering, the induction does not wrap around. -/
structure BoundHolds (run : Run F) (loop : LoopInfo) (b : Bound) (c : LinearCompare) : Prop where
  integers : b.branch.comparison.ComparesIntegers
  inTime : PassedInEveryIteration run loop b.branch ∨
    (c.cmp ≠ .ne ∧ ∀ t ≤ run.length, loop.contains (run.block t) →
      IsInt64 (c.exact (run.value t) (run.iter loop t)))

/-- One step further, an induction strictly inside a bound is representable and at most at it. -/
theorem Strict.step {stride : Int64} {x limit : ℤ} (h : Strict stride x limit) (hx : IsInt64 x)
    (hlimit : IsInt64 limit) : IsInt64 (x + stride.toInt) ∧
      (x + stride.toInt = limit ∨ Strict stride (x + stride.toInt) limit) := by
  have hpos : (1 : Int64).toInt = 1 := by decide
  have hneg : (-1 : Int64).toInt = -1 := by decide
  rw [isInt64_iff] at hx hlimit ⊢
  rcases h with ⟨hs, hlt⟩ | ⟨hs, hlt⟩
  · rw [hs]
    refine ⟨by omega, ?_⟩
    by_cases heq : x + 1 = limit
    · exact .inl heq
    · exact .inr (.inl ⟨rfl, by omega⟩)
  · rw [hs]
    refine ⟨by omega, ?_⟩
    by_cases heq : x + -1 = limit
    · exact .inl heq
    · exact .inr (.inr ⟨rfl, by omega⟩)

namespace Recorded

/-- The state of an induction with a recorded bound: it has not wrapped around or, for `!=`, run
past the limit. -/
def InBound (run : Run F) (loop : LoopInfo) (b : Bound) (c : LinearCompare) (t : ℕ) : Prop :=
  IsInt64 (c.exact (run.value t) (run.iter loop t)) ∧
    (c.cmp = .ne → c.exact (run.value t) (run.iter loop t) = b.limit.offset.toInt ∨
      Strict c.stride (c.exact (run.value t) (run.iter loop t)) b.limit.offset.toInt)

variable {addr : ℕ} {b : Bound} {c : LinearCompare} {s t : ℕ} {pos : Instruction}
  (hrec : Recorded F outers loop addr b c) (hwf : loop.WellFormed F)
include hrec hwf

/-- The exact value of the induction is the same throughout an iteration. -/
theorem exact_eq_of_le
    (ht : t ≤ run.length) (hst : s ≤ t) (hmem : loop.contains (run.block t))
    (hne : ∀ r, s < r → r ≤ t → run.block r ≠ loop.header) :
    c.exact (run.value t) (run.iter loop t) = c.exact (run.value s) (run.iter loop s) := by
  have hinit := (hrec.before_initial hwf).denote_eq hwf ht hst hmem hne
  have hiter : run.iter loop t = run.iter loop s := iteration_eq_of_le hst hne
  rw [LinearCompare.exact, LinearCompare.exact, hinit, hiter]

variable (hF : F.WellFormed)
include hF

/-- A branch that dominates the position has been passed in the current iteration. -/
theorem exists_passed (hdom : F.isDominatedBy pos b.branch)
    (hlast : pos.block ∈ loop.own → pos.isLast = false) (ht : t ≤ run.length)
    (hpos : run.block t = pos.block) (hmem : loop.contains (run.block t)) :
    ∃ s < t, run.block s = b.branch.block ∧
      ∀ r, s < r → r ≤ t → run.block r ≠ loop.header := by
  obtain ⟨hown, hbr⟩ := hrec.branch_eq hF
  have hne : pos.block ≠ b.branch.block := by
    intro heq
    rw [Function.isDominatedBy, if_pos heq, hlast (heq ▸ hown)] at hdom
    cases hdom
  rw [Function.isDominatedBy, if_neg hne, ← hpos] at hdom
  obtain ⟨s, hst, hsb, hsince⟩ := hwf.natural.visitedInIteration run.trace ht hmem
    (hwf.own _ hown) (hF.dominates hdom)
  refine ⟨s, lt_of_le_of_ne hst ?_, hsb, hsince⟩
  rintro rfl
  exact hne (hpos.symm.trans hsb)

variable (hlim : LimitsSound run loop outers B) (hB : F.graph.Dominates b.branch.block B)
include hlim hB

/-- Where the branch dominates, the limits computed at it are limits of its bound. -/
theorem limit_within {u : Limits}
    (hu : invariantBounds .checked F outers b.branch.instr b.limit = some (some u))
    (hdom : F.isDominatedBy pos b.branch) (hlast : pos.block ∈ loop.own → pos.isLast = false)
    (ht : t ≤ run.length) (hpos : run.block t = pos.block) (hmem : loop.contains (run.block t)) :
    Within (run.value t) u (b.limit.denote (run.value t)).toInt := by
  obtain ⟨s, hst, hsb, hsince⟩ := hrec.exists_passed hwf hF hdom hlast ht hpos hmem
  have hlimit := hrec.before_limit hwf
  obtain ⟨h1, h2, hwithin⟩ :=
    hlim (show loop.contains b.branch.instr.block from hwf.own _ (hrec.branch_eq hF).1) hB hlimit hu
  rw [Within, h1.denote_eq hwf ht hst.le hmem hsince, h2.denote_eq hwf ht hst.le hmem hsince,
    hlimit.denote_eq hwf ht hst.le hmem hsince]
  exact hwithin s (by omega) hsb

variable (hden : Denotes run loop)
include hden

/-- When the branch has been passed inside the bound, the induction is strictly inside. -/
theorem strict_of_inBound
    (hint : b.branch.comparison.ComparesIntegers) (hs : s < run.length)
    (hblock : run.block s = b.branch.block) (hcont : loop.contains (run.block (s + 1)))
    (hin : InBound run loop b c s) :
    Strict c.stride (c.exact (run.value s) (run.iter loop s))
      (b.limit.denote (run.value s)).toInt := by
  have hpassed := hrec.passed hwf hF hden hlim hB hint hs hblock hcont
  rw [LinearCompare.toInt_denote hrec.compare, wrap64_of_isInt64 hin.1] at hpassed
  rcases hpassed with ⟨-, hstrict⟩ | ⟨hne, hdiff⟩
  · exact hstrict
  · rw [denote_of_isConstant (hrec.ne_constant hne).2.1] at hdiff ⊢
    exact (hin.2 hne).resolve_left hdiff

/-- **No wrap-around.** An induction whose branch is passed in every iteration stays in its
bound. -/
theorem inBound
    (hint : b.branch.comparison.ComparesIntegers)
    (hpass : PassedInEveryIteration run loop b.branch) (t : ℕ) (ht : t ≤ run.length)
    (hmem : loop.contains (run.block t)) : InBound run loop b c t := by
  -- In the first iteration the induction has its initial value.
  have hstart : ∀ t, run.iter loop t = 0 → InBound run loop b c t := by
    intro t hiter
    have hexact : c.exact (run.value t) 0 = (c.initial.denote (run.value t)).toInt := by
      simp [LinearCompare.exact]
    rw [InBound, hiter, hexact]
    refine ⟨isInt64_of_int64 _, fun hne => .inr ?_⟩
    obtain ⟨hinit, -, hstrict⟩ := hrec.ne_constant hne
    rwa [denote_of_isConstant hinit]
  induction t using Nat.strong_induction_on with
  | _ t ih =>
    cases t with
    | zero => exact hstart 0 rfl
    | succ t =>
      by_cases hhead : run.block (t + 1) = loop.header
      · by_cases hprev : loop.contains (run.block t)
        · -- A back edge: the branch was passed in the iteration that ends here.
          obtain ⟨s, hst, hsb, hlast⟩ := hpass t (by omega) hprev hhead
          have hin := run.contains_of_le (s := s) hwf (by omega) hprev hlast
          have hcont : loop.contains (run.block (s + 1)) := by
            rcases lt_or_ge s t with h | h
            · exact hin (s + 1) (by omega) (by omega)
            · obtain rfl : s = t := by omega
              exact hmem
          have hins := ih s (by omega) (by omega) (hin s le_rfl hst)
          have hstrict := hrec.strict_of_inBound hwf hF hlim hB hden hint (by omega) hsb hcont hins
          have hexact : c.exact (run.value (t + 1)) (run.iter loop (t + 1)) =
              c.exact (run.value s) (run.iter loop s) + c.stride.toInt := by
            have hinit := (hrec.before_initial hwf).denote_succ (by omega) hmem
            have hiter : run.iter loop (t + 1) = run.iter loop t + 1 := by
              simp [Run.iter, iteration, hhead, hprev]
            rw [← hrec.exact_eq_of_le hwf (by omega) hst hprev hlast, LinearCompare.exact,
              LinearCompare.exact, hinit, hiter]
            push_cast
            ring
          have hnext := hstrict.step hins.1 (isInt64_of_int64 _)
          rw [InBound, hexact]
          refine ⟨hnext.1, fun hne => ?_⟩
          rw [denote_of_isConstant (hrec.ne_constant hne).2.1] at hnext
          exact hnext.2
        · -- The loop is entered.
          exact hstart (t + 1) (by simp [Run.iter, iteration, hhead, hprev])
      · have hprev : loop.contains (run.block t) := by
          by_contra hout
          exact hhead (hwf.natural.entered (run.trace.step t (by omega)) hout hmem)
        have hins := ih t (by omega) (by omega) hprev
        have hexact := hrec.exact_eq_of_le hwf ht (Nat.le_succ t) hmem
          (fun r h1 h2 => by
            obtain rfl : r = t + 1 := by omega
            exact hhead)
        rw [InBound, hexact]
        exact hins

/-- **Under control.** Where the branch of a bound that holds dominates, the induction is exact and
strictly inside. -/
theorem bounded
    (hholds : BoundHolds run loop b c) (hdom : F.isDominatedBy pos b.branch)
    (hlast : pos.block ∈ loop.own → pos.isLast = false) (ht : t ≤ run.length)
    (hpos : run.block t = pos.block) (hmem : loop.contains (run.block t)) :
    IsInt64 (c.exact (run.value t) (run.iter loop t)) ∧
      Strict c.stride (c.exact (run.value t) (run.iter loop t))
        (b.limit.denote (run.value t)).toInt := by
  obtain ⟨s, hst, hsb, hsince⟩ := hrec.exists_passed hwf hF hdom hlast ht hpos hmem
  have hin := run.contains_of_le hwf ht hmem hsince
  rw [hrec.exact_eq_of_le hwf ht hst.le hmem hsince,
    (hrec.before_limit hwf).denote_eq hwf ht hst.le hmem hsince]
  have hinb : InBound run loop b c s := by
    rcases hholds.inTime with hpass | ⟨hcmp, hexact⟩
    · exact hrec.inBound hwf hF hlim hB hden hholds.integers hpass s (by omega)
        (hin s le_rfl hst.le)
    · exact ⟨hexact s (by omega) (hin s le_rfl hst.le), fun hne => absurd hne hcmp⟩
  exact ⟨hinb.1, hrec.strict_of_inBound hwf hF hlim hB hden hholds.integers (by omega) hsb
    (hin (s + 1) (by omega) (by omega)) hinb⟩

end Recorded

end DartVm.Loops
