import DartVm.Library.LoopRules
import DartVm.Loops.Limits

/-! # What `ClassifyControl` records

Every bound in a classified loop comes from a branch that compares a linear induction with an
invariant (`Recorded`), and the control induction has a bound at the end of the loop header.
`strictLimit_cases`, `controlledBounds_cases` and `inductionBounds_cases` say once what the
computations that consult the bounds can return.

* `Recorded`: what a bound in a classified loop comes from.
* `classifying_of_classifyControl`: the invariant of `ClassifyControl`, at its end. -/

namespace DartVm.Loops

open DartVm.Flow Option

variable {F : Function} {loop loop' : LoopInfo} {outers : List LoopInfo} {br : BranchInstr}

/-- **A recorded bound** of the induction at `addr`. -/
structure Recorded (F : Function) (outers : List LoopInfo) (loop : LoopInfo) (addr : ℕ) (b : Bound)
    (c : LinearCompare) : Prop where
  compare : loop.linearCompare F b.branch = some c
  addr_eq : c.x.addr = addr
  limit : strictLimit .checked F outers b.branch c.initial c.stride c.y c.cmp = some (some b.limit)
  own : b.branch ∈ loop.own.filterMap F.branch

/-- The bounds of a definition are those recorded for it. -/
theorem LoopInfo.mem_boundsOf {a : ℕ} {b : Bound} : b ∈ loop.boundsOf a ↔ (a, b) ∈ loop.bounds := by
  simp only [boundsOf, List.mem_filterMap]
  constructor
  · rintro ⟨⟨a', b'⟩, hmem, hb⟩
    split_ifs at hb with ha
    cases hb
    rwa [← ha]
  · intro hmem
    exact ⟨(a, b), hmem, by simp⟩

/-- What holds while `ClassifyControl` runs: only bounds and control change,
recorded from branches. -/
structure Classifying (F : Function) (outers : List LoopInfo) (loop s : LoopInfo) : Prop where
  same : s = { loop with bounds := s.bounds, control := s.control }
  bounds : ∀ e ∈ s.bounds, ∃ c, Recorded F outers loop e.1 e.2 c
  control : ∀ r, s.control = some r → ∃ b c, (r.addr, b) ∈ s.bounds ∧
    Recorded F outers loop r.addr b c ∧ c.x = r ∧ b.branch.block = loop.header

/-- Looking at one more branch keeps the invariant of the classification. -/
theorem Classifying.step {s s' : LoopInfo}
    (hbr : br ∈ loop.own.filterMap F.branch) (hs : Classifying F outers loop s)
    (h : classifyBranch .checked F outers s br = some s') : Classifying F outers loop s' := by
  have hcompare : s.linearCompare F br = loop.linearCompare F br := by
    rw [hs.same]
    rfl
  have hheader : s.header = loop.header := by rw [hs.same]
  unfold classifyBranch at h
  rw [hcompare] at h
  split at h
  case h_2 =>
    cases h
    exact hs
  case h_1 c hc =>
    obtain ⟨limit, hlimit, hres⟩ := bind_eq_some_iff.mp h
    cases limit with
    | none =>
      cases hres
      exact hs
    | some limit =>
      cases hres
      have hrec : Recorded F outers loop c.x.addr ⟨br, limit⟩ c := ⟨hc, rfl, hlimit, hbr⟩
      refine ⟨?_, ?_, ?_⟩
      · rw [hs.same]
      · intro e he
        rcases List.mem_append.mp he with he | he
        · exact hs.bounds e he
        · rw [List.mem_singleton.mp he]
          exact ⟨c, hrec⟩
      · intro r hr
        split_ifs at hr with hhead
        · cases hr
          exact ⟨⟨br, limit⟩, c, by simp, hrec, rfl, by rw [← hheader, ← hhead]⟩
        · obtain ⟨b, c', hb, hrest⟩ := hs.control r hr
          exact ⟨b, c', List.mem_append_left _ hb, hrest⟩

/-- The invariant holds when all branches have been looked at. -/
theorem classifying_of_classifyControl (h : classifyControl .checked F outers loop = some loop') :
    Classifying F outers loop loop' := by
  refine Loop.foldlM_some_inv (fun br hbr s s' hs hstep => hs.step hbr hstep) h ?_
  exact ⟨rfl, fun e he => absurd he (by simp), fun r hr => absurd hr (by simp)⟩

/-! ## Case analysis -/

/-- The comparisons that give a strict limit, and how it is adjusted. -/
theorem strictLimit_cases {initial y limit : Invariant} {stride : Int64}
    {cmp : Token} (h : strictLimit .checked F outers br initial stride y cmp = some (some limit)) :
    (cmp = .lt ∧ stride = 1 ∧ limit = y) ∨ (cmp = .gt ∧ stride = -1 ∧ limit = y) ∨
    (cmp = .lte ∧ stride = 1 ∧ canBeMadeExclusive .checked F outers y br false = some true ∧
      y.add (.const 1) = some limit) ∨
    (cmp = .gte ∧ stride = -1 ∧ canBeMadeExclusive .checked F outers y br true = some true ∧
      y.sub (.const 1) = some limit) ∨
    (cmp = .ne ∧ limit = y ∧ initial.isConstant ∧ y.isConstant ∧
      (stride = 1 ∧ initial.offset < y.offset ∨ stride = -1 ∧ y.offset < initial.offset)) := by
  cases cmp with
  | lt | gt =>
    simp only [strictLimit, pure_def, some.injEq] at h
    split_ifs at h with hs
    cases h
    simp [hs]
  | lte | gte =>
    simp only [strictLimit] at h
    split_ifs at h with hs
    · obtain ⟨ex, hex, hres⟩ := bind_eq_some_iff.mp h
      cases ex with
      | false => cases hres
      | true => simpa [hs, hex] using hres
    · cases h
  | ne =>
    simp only [strictLimit, pure_def, some.injEq] at h
    split_ifs at h with hs
    cases h
    simp only [Bool.and_eq_true, Bool.or_eq_true, beq_iff_eq, decide_eq_true_eq] at hs
    exact .inr (.inr (.inr (.inr ⟨rfl, rfl, hs.1.1, hs.1.2, hs.2⟩)))
  | _ => cases h

section

variable {recur : Instruction → Invariant → Option (Option Limits)} {pos : Instruction}

/-- What a controlled bound has been computed from. -/
theorem controlledBounds_cases {stride off : Int64} {l res : Limits} {bs : List Bound}
    (h : controlledBounds .checked F recur pos stride off l bs = some (some res)) :
    ∃ b ∈ bs, F.isDominatedBy pos b.branch ∧ ∃ u shift,
      recur b.branch.instr b.limit = some (some u) ∧ Arith.checked.sub (-stride) off = some shift ∧
      (0 < stride ∧ safelyAdjust .checked F l.1 0 u.2 shift = some (some res) ∨
        ¬ 0 < stride ∧ safelyAdjust .checked F u.1 shift l.2 0 = some (some res)) := by
  induction bs with
  | nil => cases h
  | cons b rest ih =>
    have hrest (h : controlledBounds .checked F recur pos stride off l rest =
      some (some res)) := ih h
    unfold controlledBounds at h
    split at h
    case isFalse =>
      obtain ⟨b', hb', hrest'⟩ := hrest h
      exact ⟨b', List.mem_cons_of_mem _ hb', hrest'⟩
    case isTrue hdom =>
      obtain ⟨u, hu, hres⟩ := bind_eq_some_iff.mp h
      cases u with
      | none =>
        obtain ⟨b', hb', hrest'⟩ := hrest hres
        exact ⟨b', List.mem_cons_of_mem _ hb', hrest'⟩
      | some u =>
        obtain ⟨shift, hshift, hadj⟩ := bind_eq_some_iff.mp hres
        refine ⟨b, List.mem_cons_self, hdom, u, shift, hu, hshift, ?_⟩
        split_ifs at hadj with hpos
        · exact .inl ⟨hpos, hadj⟩
        · exact .inr ⟨hpos, hadj⟩

/-- What the bounds of an induction variable have been computed from. -/
theorem inductionBounds_cases {x : InductionVar} {res : Limits}
    (h : inductionBounds .checked F recur loop pos x = some (some res)) :
    ∃ initial next control off l, x = .linear initial next ∧ loop.control = some control ∧
      next.isConstant ∧ (next.offset = 1 ∨ next.offset = -1) ∧
      x.canComputeDifferenceWith control.var = some off ∧ recur pos initial = some (some l) ∧
      controlledBounds .checked F recur pos next.offset off l (loop.boundsOf control.addr) =
        some (some res) := by
  unfold inductionBounds at h
  split at h
  case h_2 => cases h
  case h_1 initial next =>
    split at h
    case h_2 => cases h
    case h_1 control hcontrol =>
      split_ifs at h with hunit
      · split at h
        case h_2 => cases h
        case h_1 off hoff =>
          obtain ⟨l, hl, h⟩ := bind_eq_some_iff.mp h
          cases l with
          | none => cases h
          | some l =>
            exact ⟨initial, next, control, off, l, rfl, hcontrol, hunit.1, hunit.2, hoff, hl, h⟩
      · cases h

end

end DartVm.Loops
