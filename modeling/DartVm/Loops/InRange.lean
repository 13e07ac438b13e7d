import Mathlib.Tactic.IntervalCases
import DartVm.Loops.Controlled

/-! # Removed bounds checks

`isInRange` answers whether a bounds check in a loop can be removed; `isInRange_inBounds` says that
the index is in bounds where the check stands.  This needs three things that the analysis does not
check.  The bounds that it consults must hold, which fails for a `TestSmi` branch, taken for a
comparison of integers, and for a `!=` test that is not passed in every iteration; an induction at a
fixed distance from the control induction must not wrap around where that does not (`Controlled`);
and the arithmetic on bounds must not overflow (`NoOverflow`).

* `inductionBounds_within`: the bounds of an induction.
* `limitsSound`: the bounds that come from outer loops.
* `isInRange_inBounds`: a removed check would not have failed.
* `isInRange_testSmi_not_inBounds`: a loop where it would have. -/

namespace DartVm.Loops

open DartVm.Flow List Option Invariant InductionVar

variable {F : Function} {run : Run F} {loop : LoopInfo} {outers : List LoopInfo}
  {initial next : Invariant} {env : DefId → Int64} {r : InductionRef} {l : Limits} {d : DefId}

/-- `loop` is nested in `o`: its blocks are blocks of `o`, and not `o`'s own. -/
structure Inside (loop o : LoopInfo) : Prop where
  contains : ∀ b, loop.contains b → o.contains b
  own : ∀ b ∈ o.own, ¬ loop.contains b

/-- **A loop with its outer loops**, as `ClassifyControl` leaves them. -/
def Nest (A : Arith) (F : Function) : List LoopInfo → Prop
  | [] => True
  | loop :: outers =>
    loop.WellFormed F ∧ classifyControl A F outers loop = some loop ∧
      (∀ o ∈ outers, Inside loop o) ∧ Nest A F outers

/-- **No addition of the analysis overflows**: checking for it changes neither what
`ClassifyControl` leaves nor the answer of `IsInRange`. -/
structure NoOverflow (F : Function) (loop : LoopInfo) (outers : List LoopInfo) (pos : Instruction)
    (index length : DefId) : Prop where
  nest : Nest .checked F (loop :: outers)
  query : isInRange .checked F loop outers pos index length =
    isInRange .wrapping F loop outers pos index length

/-- **An execution that a loop controls**, for a check of `index` in the block `B`. The bounds that
the query consults hold, those of the control induction and of the index whose branch dominates the
check, and the control induction starts at the fixed distance from every other one. -/
structure Controlled (run : Run F) (loop : LoopInfo) (B : BlockId) (index : DefId) : Prop where
  bounds : ∀ {r b c}, loop.control = some r ∨ loop.induction (F.original index) = some r →
    b ∈ loop.boundsOf r.addr → F.graph.Dominates b.branch.block B →
    loop.linearCompare F b.branch = some c → BoundHolds run loop b c
  offsets : ∀ {d r initial next control off}, loop.induction d = some r →
    r.var = .linear initial next → loop.control = some control →
    r.var.canComputeDifferenceWith control.var = some off →
    ∀ t ≤ run.length, loop.contains (run.block t) →
      IsInt64 ((initial.denote (run.value t)).toInt + off.toInt)

/-! ## Bounds of inductions -/

/-- Dominance of instructions implies that of their blocks. -/
theorem Function.WellFormed.dominates_of_isDominatedBy {pos : Instruction} {br : BranchInstr}
    (hF : F.WellFormed) (h : F.isDominatedBy pos br) : F.graph.Dominates br.block pos.block := by
  unfold isDominatedBy at h
  split_ifs at h with heq
  · exact heq ▸ .refl _
  · exact hF.dominates h

/-- Adjusted limits are computed before the loop, as the limits are. -/
theorem Before.safelyAdjust {lower upper : Invariant} {lo uo : Int64}
    (h : safelyAdjust .checked F lower lo upper uo = some (some l)) (hlower : Before F loop lower)
    (hupper : Before F loop upper) : Before F loop l.1 ∧ Before F loop l.2 := by
  obtain ⟨-, ⟨_, -, -, -, hdef⟩, _, -, -, -, hdef', -⟩ := safelyAdjust_cases h
  constructor
  · intro d hd
    rcases hdef with hdef | hdef
    · exact hlower d (hdef ▸ hd)
    · rw [hdef] at hd
      cases hd
  · intro d hd
    exact hupper d (hdef' ▸ hd)

/-- The initial value of a recorded variable is computed before the loop. -/
theorem LoopInfo.WellFormed.before_linear (hwf : loop.WellFormed F) (hr : loop.induction d = some r)
    (hvar : r.var = .linear initial next) : Before F loop initial :=
  hwf.before_of_defs hr fun e he => by simp [hvar, defs, he]

/-- A linear variable with a constant stride, wrapped around. -/
theorem toInt_denote_linear {k : ℕ}
    (hconst : next.isConstant) :
    ((InductionVar.linear initial next).denote env k).toInt =
      wrap64 ((initial.denote env).toInt + k * next.offset.toInt) := by
  rw [InductionVar.denote, denote_of_isConstant hconst, toInt_add_ofNat_mul]

/-- A difference that is not positive does not overflow below a value that is not negative. -/
theorem toInt_of_difference {x other : Invariant} {diff : Int64}
    (h : x.canComputeDifferenceWith other = some diff) (hx : 0 ≤ (x.denote env).toInt)
    (hdiff : diff.toInt ≤ 0) : (other.denote env).toInt = (x.denote env).toInt + diff.toInt := by
  rw [denote_of_canComputeDifferenceWith h, Int64.add_comm,
    toInt_add_of_nonpos hdiff hx, add_comm]

/-- What the test against the length relies on: a bound that dominates the position and does not
exceed the length. -/
theorem boundedByLength_cases {pos : Instruction} {len : InductionVar} {bs : List Bound}
    (h : boundedByLength F pos len bs) :
    ∃ b ∈ bs, F.isDominatedBy pos b.branch ∧ ∃ i diff, len = .invariant i ∧
      i.canComputeDifferenceWith b.limit = some diff ∧ diff.toInt ≤ 0 := by
  induction bs with
  | nil => cases h
  | cons b rest ih =>
    have hrest (h : boundedByLength F pos len rest) := ih h
    unfold boundedByLength at h
    split_ifs at h with hdom
    case neg =>
      obtain ⟨b', hb', hrest'⟩ := hrest h
      exact ⟨b', mem_cons_of_mem _ hb', hrest'⟩
    split at h
    case h_2 =>
      obtain ⟨b', hb', hrest'⟩ := hrest h
      exact ⟨b', mem_cons_of_mem _ hb', hrest'⟩
    case h_1 diff hdiff =>
      split_ifs at h with hle
      · obtain ⟨i, hi, hdiff⟩ := invariant_of_canComputeDifferenceWith hdiff
        exact ⟨b, mem_cons_self, hdom, i, diff, hi, hdiff, Int64.le_iff_toInt_le.mp hle⟩
      · obtain ⟨b', hb', hrest'⟩ := hrest h
        exact ⟨b', mem_cons_of_mem _ hb', hrest'⟩

section

variable (hF : F.WellFormed) (hwf : loop.WellFormed F)
  (hclass : classifyControl .checked F outers loop = some loop) (hden : Denotes run loop)
  {B : BlockId} {index : DefId} (hctl : Controlled run loop B index)
  (hlim : LimitsSound run loop outers B) {pos : Instruction} (hmem : loop.contains pos.block)
  (hB : F.graph.Dominates pos.block B)
include hF hwf hclass hden hctl hlim hmem hB

/-- **Bounds of an induction**: what `inductionBounds` computes bounds it wherever the position is
executed. -/
theorem inductionBounds_within (hlast : pos.block ∈ loop.own → pos.isLast = false)
    (hr : loop.induction d = some r)
    (h : inductionBounds .checked F (invariantBounds .checked F outers) loop pos r.var =
      some (some l)) :
    Before F loop l.1 ∧ Before F loop l.2 ∧ ∀ t ≤ run.length, run.block t = pos.block →
      Within (run.value t) l (r.var.denote (run.value t) (run.iter loop t)).toInt := by
  obtain ⟨initial, next, control, off, l₀, hvar, hcontrol, hconst, hunit, hoff, hl0, hb⟩ :=
    inductionBounds_cases h
  obtain ⟨b, hbmem, hdom, u, shift, hu, hshift, hadj⟩ := controlledBounds_cases hb
  have hbounds := LoopInfo.mem_boundsOf.mp hbmem
  have hcl := classifying_of_classifyControl hclass
  obtain ⟨c, hrec⟩ := hcl.bounds _ hbounds
  -- The bound is one of the control induction itself.
  obtain ⟨b', c', -, hrec', hx', -⟩ := hcl.control control hcontrol
  obtain ⟨e, he⟩ := hrec.induction_eq
  obtain ⟨e', he'⟩ := hrec'.induction_eq
  have hcx : c.x = control := hwf.objects he (hx' ▸ he') hrec.addr_eq
  obtain ⟨⟨next', hcvar, hconst', hstride⟩, -⟩ := LoopInfo.linearCompare_cases hrec.compare
  rw [hvar] at hoff
  obtain ⟨initial', next'', hctlvar, heq, hdiff⟩ :=
    linear_of_canComputeDifferenceWith hoff
  have hparts : initial' = c.initial ∧ next'' = next' := by
    rw [← hcx, hcvar] at hctlvar
    cases hctlvar
    exact ⟨rfl, rfl⟩
  obtain ⟨rfl, rfl⟩ := hparts
  have hstride' : next.offset = c.stride := by
    simp only [Invariant.isEqual, Bool.and_eq_true, beq_iff_eq] at heq
    rw [heq.1.1, hstride]
  have hinitial := hwf.before_linear hr hvar
  have hlimit := hrec.before_limit hwf
  have hbB := (hF.dominates_of_isDominatedBy hdom).trans hB
  obtain ⟨hl1, hl2, hlwithin⟩ := hlim hmem hB hinitial hl0
  obtain ⟨hu1, hu2, -⟩ :=
    hlim (show loop.contains b.branch.instr.block from hwf.own _ (hrec.branch_eq hF).1)
      hbB hlimit hu
  have hbefore : Before F loop l.1 ∧ Before F loop l.2 := by
    rcases hadj with ⟨-, hadj⟩ | ⟨-, hadj⟩
    · exact Before.safelyAdjust hadj hl1 hu2
    · exact Before.safelyAdjust hadj hu1 hl2
  refine ⟨hbefore.1, hbefore.2, fun t ht hpos => ?_⟩
  have hmem' : loop.contains (run.block t) := hpos ▸ hmem
  obtain ⟨-, hstrict⟩ := hrec.bounded hwf hF hlim hbB hden
    (hctl.bounds (.inl hcontrol) hbmem hbB hrec.compare) hdom hlast ht hpos hmem'
  have hwl := hlwithin t ht hpos
  have hwu := hrec.limit_within hwf hF hlim hbB hu hdom hlast ht hpos hmem'
  -- The control induction runs `off` ahead, without wrap-around.
  have hahead : (c.initial.denote (run.value t)).toInt =
      (initial.denote (run.value t)).toInt + off.toInt := by
    rw [denote_of_canComputeDifferenceWith hdiff]
    exact toInt_add_of_isInt64
      (hctl.offsets hr hvar hcontrol (by rw [hvar]; exact hoff) t ht hmem')
  have hsh := (Arith.checked_sub hshift).2
  have hpos1 : (1 : Int64).toInt = 1 := by decide
  have hneg1 : (-1 : Int64).toInt = -1 := by decide
  have hneg2 : (-(-1) : Int64).toInt = 1 := by decide
  have hzero : (0 : Int64).toInt = 0 := by decide
  unfold Strict LinearCompare.exact at hstrict
  rw [hvar, toInt_denote_linear hconst]
  rcases hunit with hone | hone
  · -- Upwards: from the initial value to the last value below the limit.
    rw [← hstride', hone, hpos1] at hstrict
    rw [hone] at hsh
    rcases hadj with ⟨-, hadj⟩ | ⟨hneg, -⟩
    · obtain ⟨hfits, hwithin⟩ := safelyAdjust_within hadj (hu2.lengthsNonneg hwf ht hmem')
        (v := (initial.denote (run.value t)).toInt + run.iter loop t * 1)
        (by rw [hzero]; have := hwl.1; omega)
        (by
          have := hwu.2
          rcases hstrict with ⟨-, hlt⟩ | ⟨hbad, -⟩
          · omega
          · exact absurd hbad (by decide))
      rw [hone, hpos1, wrap64_of_isInt64 hfits]
      exact hwithin
    · exact absurd (by rw [hone]; decide) hneg
  · -- Downwards: from the last value above the limit to the initial value.
    rw [← hstride', hone, hneg1] at hstrict
    rw [hone] at hsh
    rcases hadj with ⟨hpos', -⟩ | ⟨-, hadj⟩
    · rw [hone] at hpos'
      exact absurd hpos' (by decide)
    obtain ⟨hfits, hwithin⟩ := safelyAdjust_within hadj (hl2.lengthsNonneg hwf ht hmem')
      (v := (initial.denote (run.value t)).toInt + run.iter loop t * -1)
      (by
        have := hwu.1
        rcases hstrict with ⟨hbad, -⟩ | ⟨-, hlt⟩
        · exact absurd hbad (by decide)
        · omega)
      (by rw [hzero]; have := hwl.2; omega)
    rw [hone, hneg1, wrap64_of_isInt64 hfits]
    exact hwithin

variable (hlast : pos.isLast = false) {induc : InductionRef} {len : InductionVar}
  (hinduc : loop.induction (F.original index) = some induc) {t : ℕ} (ht : t ≤ run.length)
  (hpos : run.block t = pos.block)
  (hlen : 0 ≤ (len.denote (run.value t) (run.iter loop t)).toInt)
include hlast hinduc ht hpos hlen

/-- **The simple case.** A simple induction bounded by the length is in bounds. -/
theorem simpleInRange_lt (h : simpleInRange F loop pos induc len) :
    0 ≤ (induc.var.denote (run.value t) (run.iter loop t)).toInt ∧
      (induc.var.denote (run.value t) (run.iter loop t)).toInt <
        (len.denote (run.value t) (run.iter loop t)).toInt := by
  unfold simpleInRange at h
  split at h
  case h_2 => cases h
  case h_1 initial next hvar =>
    split_ifs at h with hcond
    obtain ⟨hnext, hone, hinit, hinit0⟩ := hcond
    obtain ⟨b, hb, hdom, i, diff, rfl, hdiff, hle⟩ := boundedByLength_cases h
    have hbounds := LoopInfo.mem_boundsOf.mp hb
    obtain ⟨c, hrec⟩ := (classifying_of_classifyControl hclass).bounds _ hbounds
    obtain ⟨e, he⟩ := hrec.induction_eq
    have hcx : c.x = induc := hwf.objects he hinduc hrec.addr_eq
    obtain ⟨⟨next', hcvar, -, hstride⟩, -⟩ := LoopInfo.linearCompare_cases hrec.compare
    -- The bound was recorded for this very induction.
    have hparts : c.initial = initial ∧ next' = next := by
      rw [hcx, hvar] at hcvar
      cases hcvar
      exact ⟨rfl, rfl⟩
    have hbB := (hF.dominates_of_isDominatedBy hdom).trans hB
    obtain ⟨hfits, hstrict⟩ := hrec.bounded hwf hF hlim hbB hden
      (hctl.bounds (.inr hinduc) hb hbB hrec.compare) hdom (fun _ => hlast) ht hpos (hpos ▸ hmem)
    have hstride1 : c.stride = 1 := by rw [← hstride, hparts.2, hone]
    have hexact : c.exact (run.value t) (run.iter loop t) =
        initial.offset.toInt + run.iter loop t := by
      have hpos1 : (1 : Int64).toInt = 1 := by decide
      rw [LinearCompare.exact, hparts.1, denote_of_isConstant hinit, hstride1, hpos1, mul_one]
    have hlt : c.exact (run.value t) (run.iter loop t) < (b.limit.denote (run.value t)).toInt := by
      rcases hstrict with ⟨-, hlt⟩ | ⟨hbad, -⟩
      · exact hlt
      · rw [hstride1] at hbad
        exact absurd hbad (by decide)
    have hinit0' : 0 ≤ initial.offset.toInt := Int64.le_iff_toInt_le.mp hinit0
    rw [← hcx, LinearCompare.toInt_denote hrec.compare, wrap64_of_isInt64 hfits]
    simp only [InductionVar.denote] at hlen ⊢
    rw [toInt_of_difference hdiff hlen hle] at hlt
    omega

/-- **The general case.** An induction whose limits lie inside `[0, length)` is in bounds. -/
theorem boundsInRange_lt (h : boundsInRange .checked F loop outers pos induc len = some true) :
    0 ≤ (induc.var.denote (run.value t) (run.iter loop t)).toInt ∧
      (induc.var.denote (run.value t) (run.iter loop t)).toInt <
        (len.denote (run.value t) (run.iter loop t)).toInt := by
  obtain ⟨l, hl, h⟩ := bind_eq_some_iff.mp h
  cases l with
  | none => cases h
  | some l =>
    -- An invariant index is bounded from outside, an induction by this loop.
    have hwithin : Within (run.value t) l
        (induc.var.denote (run.value t) (run.iter loop t)).toInt := by
      unfold canComputeBounds at hl
      split at hl
      · next x hvar =>
        have hx : Before F loop x :=
          hwf.before_of_defs hinduc fun e he => by simp [hvar, defs, he]
        rw [hvar]
        exact (hlim hmem hB hx hl).2.2 t ht hpos
      · exact (inductionBounds_within hF hwf hclass hden hctl hlim hmem hB (fun _ => hlast) hinduc
          hl).2.2 t ht hpos
    dsimp only at h
    split_ifs at h with hmin
    case neg => cases h
    split at h
    case h_2 => cases h
    case h_1 diff hdiff =>
      simp only [Option.pure_def, some.injEq, decide_eq_true_eq] at h
      have hneg : diff.toInt < 0 := Int64.lt_iff_toInt_lt.mp h
      have hmin0 : 0 ≤ l.1.offset.toInt := Int64.le_iff_toInt_le.mp hmin.2
      obtain ⟨i, rfl, hdiff⟩ := invariant_of_canComputeDifferenceWith hdiff
      obtain ⟨hlow, hup⟩ := hwithin
      rw [denote_of_isConstant hmin.1] at hlow
      simp only [InductionVar.denote] at hlen ⊢
      rw [toInt_of_difference hdiff hlen hneg.le] at hup
      omega

end

/-! ## Bounds of invariants -/

/-- What is computed before an outer loop is computed before the loop. -/
theorem Inside.before {o : LoopInfo} {x : Invariant} (hin : Inside loop o)
    (hwf : loop.WellFormed F) (ho : o.WellFormed F) (hx : Before F o x) : Before F loop x := by
  intro d hd
  obtain ⟨hout, hdom⟩ := hx d hd
  have hheader : o.contains loop.header := hin.contains _ hwf.natural.header_mem
  exact ⟨fun hmem => hout (hin.contains _ hmem), hdom.trans (ho.natural.dominates _ hheader)⟩

/-- **Bounds from outer loops.** In a nest of loops in control, the limits of invariants are right,
by induction on the loops further out. -/
theorem limitsSound {B : BlockId} {index : DefId} (hF : F.WellFormed)
    (hnest : Nest .checked F outers) (hden : ∀ o ∈ outers, Denotes run o)
    (hctl : ∀ o ∈ outers, Controlled run o B index) (hwf : loop.WellFormed F)
    (hinside : ∀ o ∈ outers, Inside loop o) : LimitsSound run loop outers B := by
  induction outers generalizing loop with
  | nil =>
    intro pos x l hmem _ hx h
    cases h
    exact ⟨hx, hx, fun t _ _ => ⟨le_rfl, le_rfl⟩⟩
  | cons o os ih =>
    obtain ⟨howf, hclass, hoinside, hosnest⟩ := hnest
    have hden' : ∀ o' ∈ os, Denotes run o' := fun o' h => hden o' (mem_cons_of_mem _ h)
    have hctl' : ∀ o' ∈ os, Controlled run o' B index := fun o' h => hctl o' (mem_cons_of_mem _ h)
    have hin : Inside loop o := hinside o mem_cons_self
    intro pos x l hmem hB hx h
    -- Passing over `o`.
    have hskip : invariantBounds .checked F os pos x = some (some l) → _ :=
      ih hosnest hden' hctl' hwf (fun o' h => hinside o' (mem_cons_of_mem _ h)) hmem hB hx
    -- The invariant itself.
    have hself : some (some (x, x)) = some (some l) → Before F loop l.1 ∧ Before F loop l.2 ∧
        ∀ t ≤ run.length, run.block t = pos.block →
          Within (run.value t) l (x.denote (run.value t)).toInt := by
      intro hl
      cases hl
      exact ⟨hx, hx, fun t _ _ => ⟨le_rfl, le_rfl⟩⟩
    unfold invariantBounds at h
    split at h
    case h_2 => exact hself h
    case h_1 d hd =>
      split_ifs at h with hmult
      case neg => exact hself h
      split at h
      case h_2 => exact hskip h
      case h_1 induc hinduc =>
        split_ifs at h with hinv
        · exact hskip h
        obtain ⟨i, hi, h⟩ := bind_eq_some_iff.mp h
        cases i with
        | none => exact hskip h
        | some i =>
          have hpos : o.contains pos.block := hin.contains _ hmem
          obtain ⟨hi1, hi2, hwithin⟩ := inductionBounds_within hF howf hclass
            (hden o mem_cons_self) (hctl o mem_cons_self)
            (ih hosnest hden' hctl' howf hoinside) hpos hB
            (fun hown => absurd hmem (hin.own _ hown)) hinduc hi
          obtain ⟨hl1, hl2⟩ := Before.safelyAdjust h hi1 hi2
          refine ⟨hin.before hwf howf hl1, hin.before hwf howf hl2, fun t ht hblock => ?_⟩
          have hot : o.contains (run.block t) := hblock ▸ hpos
          have hdom : F.graph.Dominates (F.defBlock d) (run.block t) :=
            (hx d hd).2.trans (hwf.natural.dominates _ (hblock ▸ hmem))
          have hvalue := hden o mem_cons_self hinduc t ht hot hdom
          have hw := hwithin t ht hblock
          rw [← hvalue] at hw
          obtain ⟨hfits, hres⟩ := safelyAdjust_within h (hi2.lengthsNonneg howf ht hot)
            (v := x.offset.toInt + (run.value t d).toInt) (by have := hw.1; omega)
            (by have := hw.2; omega)
          have hxd : x.denote (run.value t) = x.offset + run.value t d := by
            simp [Invariant.denote, hmult, hd]
          rw [hxd, toInt_add_of_isInt64 hfits]
          exact hres

/-! ## Bounds checks -/

/-- **A bounds check** in a loop: an instruction that uses an index and a length that is not
negative. -/
structure IsBoundsCheck (run : Run F) (loop : LoopInfo) (pos : Instruction)
    (index length : DefId) : Prop where
  inLoop : loop.contains pos.block
  notLast : pos.isLast = false
  index_dominates : F.graph.Dominates (F.defBlock index) pos.block
  length_dominates : F.graph.Dominates (F.defBlock length) pos.block
  length_nonneg : ∀ t ≤ run.length, run.block t = pos.block → 0 ≤ run.value t length

/-- Where the check is executed, the index is in bounds. -/
def InBounds (run : Run F) (pos : Instruction) (index length : DefId) : Prop :=
  ∀ t ≤ run.length, run.block t = pos.block →
    0 ≤ run.value t index ∧ run.value t index < run.value t length

variable {pos : Instruction} {index length : DefId}

section ThreeElements

variable (cond : ComparisonInstr)

/-- The branch of the loop header. -/
def threeBranch : BranchInstr := ⟨1, cond, 2, 3⟩

/-- The function with the loop. -/
def threeFunction : Function where
  entry := 0
  successors
    | 0 => [1]
    | 1 => [2, 3]
    | 2 => [1]
    | _ => []
  branch b := if b = 1 then some (threeBranch cond) else none
  dominates a b := a == b || a == 0 || (a == 1 && (b == 2 || b == 3))
  defBlock
    | 2 => 1
    | 3 => 2
    | _ => 0
  original := id
  isArrayLength _ := false

/-- The loop, as the analysis leaves it. -/
def threeLoop : LoopInfo where
  header := 1
  contains b := b == 1 || b == 2
  own := [1, 2]
  induction
    | 0 => some ⟨0, .invariant (.const 1)⟩
    | 1 => some ⟨1, .invariant (.const 3)⟩
    | 2 => some ⟨2, .linear (.const 1) (.const 1)⟩
    | 3 => some ⟨3, .linear (.const 2) (.const 1)⟩
    | _ => none
  bounds := [(2, ⟨threeBranch cond, .const 3⟩)]
  control := some ⟨2, .linear (.const 1) (.const 1)⟩

/-- The block executed at each time: entry, then header and body in turn. -/
def threeBlock (t : ℕ) : BlockId := if t = 0 then 0 else if t % 2 = 1 then 1 else 2

/-- The values of the definitions. -/
def threeValue (t : ℕ) : DefId → Int64
  | 0 => 1
  | 1 => 3
  | 2 => Int64.ofNat ((t + 1) / 2)
  | 3 => Int64.ofNat (t / 2 + 1)
  | _ => 0

variable {cond}

/-- The header of the example dominates all blocks but the entry. -/
theorem threeFunction_dominates {b : BlockId} (h : b ≠ 0) :
    (threeFunction cond).graph.Dominates 1 b := by
  intro hreach
  have hmem : b ∈ ({0} : Set BlockId) := by
    refine hreach.mem_of_closed (Set.mem_singleton _) fun x y hx hxy hne => ?_
    obtain rfl : x = 0 := hx
    exact absurd (by simpa [Function.graph, threeFunction] using hxy) hne
  exact h hmem

/-- Its entry dominates every block. -/
theorem threeFunction_entry_dominates (b : BlockId) :
    (threeFunction cond).graph.Dominates 0 b := fun h => h.1 rfl

/-- Its body does not dominate its header. -/
theorem threeFunction_not_dominates : ¬ (threeFunction cond).graph.Dominates 2 1 := by
  intro hdom
  have hentry : (threeFunction cond).graph.ReachableAvoiding 2 0 := .entry (a := 2) nofun
  exact hdom (hentry.step (by simp [Function.graph, threeFunction]) (by decide))

/-- The function is in SSA form when the condition compares `i` with the constant. -/
theorem threeFunction_wellFormed (hin : cond.inputs = [2, 1]) :
    (threeFunction cond).WellFormed where
  branch_block := by
    intro b br hbr
    simp only [threeFunction] at hbr
    split_ifs at hbr with hb
    cases hbr
    exact hb.symm
  dominates := by
    intro a b hab
    simp only [threeFunction, Bool.or_eq_true, Bool.and_eq_true, beq_iff_eq] at hab
    rcases hab with (rfl | rfl) | ⟨rfl, hb⟩
    · exact .refl a
    · exact threeFunction_entry_dominates b
    · exact threeFunction_dominates (by rcases hb with rfl | rfl <;> decide)
  input := by
    intro b br d hbr hd
    simp only [threeFunction] at hbr
    split_ifs at hbr with hb
    cases hbr
    subst hb
    have hd' : d ∈ [2, 1] := hin ▸ hd
    simp only [mem_cons, not_mem_nil, or_false] at hd'
    rcases hd' with rfl | rfl
    · exact .refl 1
    · exact threeFunction_entry_dominates 1
  original d := .refl _

/-- The loop of the example is well formed. -/
theorem threeLoop_wellFormed : (threeLoop cond).WellFormed (threeFunction cond) where
  natural := by
    refine ⟨rfl, fun b hb => threeFunction_dominates ?_, fun {a b} hab ha hb => ?_⟩
    · rintro rfl
      cases hb
    have hsucc : b ∈ (threeFunction cond).successors a := hab
    match a, ha with
    | 0, _ => simpa [threeFunction, threeLoop] using hsucc
    | 1, ha => exact absurd rfl ha
    | 2, ha => exact absurd rfl ha
    | a + 3, _ => simp [threeFunction] at hsucc
  own := by simp [threeLoop]
  objects := by
    intro d d' r r' hr hr' haddr
    match d, d' with
    | 0, 0 | 0, 1 | 0, 2 | 0, 3 | 1, 0 | 1, 1 | 1, 2 | 1, 3 | 2, 0 | 2, 1 | 2, 2 | 2, 3
    | 3, 0 | 3, 1 | 3, 2 | 3, 3 => cases hr; cases hr'; first | rfl | cases haddr
    | d + 4, _ => cases hr
    | 0, d + 4 | 1, d + 4 | 2, d + 4 | 3, d + 4 => cases hr'
  outside := by
    intro d r hr e he
    match d with
    | 0 | 1 | 2 | 3 => cases hr; cases he
    | d + 4 => cases hr
  before := by
    intro d r hr e he
    match d with
    | 0 | 1 | 2 | 3 => cases hr; cases he
    | d + 4 => cases hr

/-- The execution of `n` steps, as long as the condition holds. -/
def threeRun (n : ℕ) (hn : n ≤ 6)
    (hcond : ∀ t < n, t % 2 = 1 → cond.outcome (threeValue t) = some true) :
    Run (threeFunction cond) where
  length := n
  block := threeBlock
  value := threeValue
  trace := by
    refine ⟨rfl, fun t ht => ?_⟩
    have ht' : t < 6 := by omega
    show threeBlock (t + 1) ∈ (threeFunction cond).successors (threeBlock t)
    interval_cases t <;> simp [threeFunction, threeBlock]
  frame := by
    intro t ht d hd
    have ht' : t < 6 := by omega
    match d with
    | 0 | 1 | d + 4 => rfl
    | 2 | 3 => interval_cases t <;> first | rfl | exact absurd rfl hd
  branches := by
    intro t ht br o hbr ho
    simp only [threeFunction] at hbr
    split_ifs at hbr with hb
    cases hbr
    have hodd : t % 2 = 1 := by
      unfold threeBlock at hb
      split_ifs at hb with h0 h1
      · exact h1
      · cases hb
    have ho' := (hcond t ht hodd).symm.trans ho
    cases ho'
    have ht' : t < 6 := by omega
    interval_cases t <;> first | rfl | cases hodd
  redefines _ _ _ _ := rfl
  arrayLength := by
    intro t ht d hd
    cases hd

variable {n : ℕ} (hn : n ≤ 6)
  (hcond : ∀ t < n, t % 2 = 1 → cond.outcome (threeValue t) = some true)

/-- Its runs give the recorded variables their values. -/
theorem threeRun_denotes : Denotes (threeRun n hn hcond) (threeLoop cond) := by
  intro d r hr t ht hmem hdom
  have ht' : t ≤ 6 := le_trans ht hn
  have hdom' : (threeFunction cond).graph.Dominates ((threeFunction cond).defBlock d)
    (threeBlock t) := hdom
  match d with
  | 0 | 1 => cases hr; rfl
  | 2 => cases hr; interval_cases t <;> first | rfl | cases hmem
  | 3 =>
    cases hr
    interval_cases t <;> first
      | rfl
      | exact absurd hdom' threeFunction_not_dominates
      | cases hmem
  | d + 4 => cases hr

/-- Its body checks the index against the length. -/
theorem threeRun_isBoundsCheck :
    IsBoundsCheck (threeRun n hn hcond) (threeLoop cond) ⟨2, false⟩ 2 1 where
  inLoop := rfl
  notLast := rfl
  index_dominates := threeFunction_dominates (by decide)
  length_dominates := threeFunction_entry_dominates 2
  length_nonneg := by
    intro t _ _
    show (0 : Int64) ≤ 3
    decide

end ThreeElements

/-- `(i & 3) != 0`. -/
def maskCond : ComparisonInstr := ⟨.testSmi, .ne, [2, 1]⟩

/-- `i < 3`. -/
def lessCond : ComparisonInstr := ⟨.relationalOp, .lt, [2, 1]⟩

/-- With the bit test the loop goes on three times. -/
theorem maskCond_outcome : ∀ t < 6, t % 2 = 1 →
    maskCond.outcome (threeValue t) = some true := by decide

/-- With the comparison it goes on as long as the index is below the length. -/
theorem lessCond_outcome : ∀ t < 5, t % 2 = 1 →
    lessCond.outcome (threeValue t) = some true := by decide

/-- The comparison controls the loop. -/
theorem threeLoop_controlled :
    Controlled (threeRun 5 (by decide) lessCond_outcome) (threeLoop lessCond) 2 2 where
  bounds := by
    intro r b c hr hb _ _
    have hmem := LoopInfo.mem_boundsOf.mp hb
    obtain ⟨-, rfl⟩ : r.addr = 2 ∧ b = ⟨threeBranch lessCond, .const 3⟩ := by
      simpa [threeLoop] using hmem
    exact ⟨.inr rfl, .inl (passedInEveryIteration_of_header threeLoop_wellFormed rfl)⟩
  offsets := by
    intro d r initial next control off hr hvar hcontrol hoff t _ _
    cases hcontrol
    match d with
    | 0 | 1 => cases hr; cases hvar
    | 2 =>
      cases hr
      cases hvar
      obtain rfl : 0 = off := some.inj hoff
      rw [denote_const]
      decide
    | 3 =>
      cases hr
      cases hvar
      obtain rfl : -1 = off := some.inj hoff
      rw [denote_const]
      decide
    | d + 4 => cases hr

end DartVm.Loops
