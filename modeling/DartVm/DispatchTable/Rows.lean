import DartVm.DispatchTable.Generator

/-! # Selector rows

What `SetupSelectorRows` computes.

* `supers` lists a class and its superclasses; these lists are suffixes of each other, which is all
  that the hierarchy contributes.
* `cidSubclassRanges` are the maximal runs of concrete subclasses, so the class ranges of a row are
  laminar (`laminar_classRanges`).
* Therefore `Finalize` merges them into separated ranges with the same class ids. -/

namespace DartVm.DispatchTable

open DartVm.Interval Program List

variable {Fn : Type} {P : Program Fn} {S : Sorters Fn}

/-- **What the generator may rely on**: superclasses form a forest, class ids and selector ids are
in bounds, and no class implements a selector in two ways. -/
structure Program.WellFormed (P : Program Fn) : Prop where
  forest : ∀ cid < P.numClasses, ∃ k ≤ P.numClasses, P.parentCid^[k] cid = kIllegalCid
  parent_lt : ∀ cid < P.numClasses, P.parentCid cid < P.numClasses
  nullCid_lt : P.nullCid < P.numClasses
  selector_lt : ∀ cid, ∀ impl ∈ P.implementations cid, impl.1 < P.selectors.length
  functional : ∀ cid sid f g, (sid, f) ∈ P.implementations cid → (sid, g) ∈ P.implementations cid →
    f = g

/-! ## Superclasses -/

variable {cid fuel : ℕ}

/-- Fuel that lasts until the top of the hierarchy is as good as more of it. -/
theorem superChain_of_le {k fuel' : ℕ} (h : P.parentCid^[k] cid = kIllegalCid) (hk : k ≤ fuel)
    (hf : k ≤ fuel') : P.superChain fuel cid = P.superChain fuel' cid := by
  induction k generalizing fuel fuel' cid with
  | zero =>
    have hcid : cid = kIllegalCid := h
    cases fuel <;> cases fuel' <;> simp [superChain, hcid]
  | succ k ih =>
    obtain ⟨fuel, rfl⟩ := Nat.exists_eq_add_of_le' hk
    obtain ⟨fuel', rfl⟩ := Nat.exists_eq_add_of_le' hf
    have h' : P.parentCid^[k] (P.parentCid cid) = kIllegalCid := h
    rw [← Nat.add_assoc, ← Nat.add_assoc, superChain, superChain,
      ih h' (Nat.le_add_left k fuel) (Nat.le_add_left k fuel')]

variable {m : ℕ} {below above : List ℕ} {x : ℕ}

/-- The chain above a class in a chain is its own chain. -/
theorem superChain_split {k : ℕ} (hend : P.parentCid^[k] cid = kIllegalCid)
    (hk : k ≤ fuel) (h : P.superChain fuel cid = below ++ m :: above) :
    ∃ k' ≤ fuel, P.parentCid^[k'] m = kIllegalCid ∧ P.superChain fuel m = m :: above := by
  induction below generalizing k cid with
  | nil =>
    obtain ⟨fuel, rfl⟩ : ∃ n, fuel = n + 1 := by
      cases fuel with
      | zero => simp [superChain] at h
      | succ n => exact ⟨n, rfl⟩
    obtain rfl : cid = m := by
      rw [superChain] at h
      split_ifs at h
      · simp at h
      · exact (List.cons.inj h).1
    exact ⟨k, hk, hend, h⟩
  | cons b below ih =>
    cases fuel with
    | zero => simp [superChain] at h
    | succ fuel =>
      have h' := h
      rw [superChain] at h'
      split_ifs at h' with h0
      · simp at h'
      -- The first step up uses one unit of fuel, and there was one to spare.
      cases k with
      | zero => exact absurd hend h0
      | succ k =>
        have hend' : P.parentCid^[k] (P.parentCid cid) = kIllegalCid := hend
        refine ih hend' (by omega) ?_
        rw [superChain_of_le hend' (by omega) (Nat.le_of_succ_le_succ hk)]
        exact (List.cons.inj h').2

section

variable (hP : P.WellFormed) (hcid : cid < P.numClasses) (hm : m ∈ P.supers cid) {m' : ℕ}
include hP hcid hm

omit hm in
/-- The superclasses of a superclass are those above it. -/
theorem Program.WellFormed.supers_split
    (h : P.supers cid = below ++ m :: above) : P.supers m = m :: above := by
  obtain ⟨k, hk, hend⟩ := hP.forest cid hcid
  obtain ⟨-, -, -, hm⟩ := superChain_split hend hk h
  exact hm

/-- The superclasses of a superclass end the list. -/
theorem Program.WellFormed.supers_suffix : P.supers m <:+ P.supers cid := by
  obtain ⟨below, above, h⟩ := append_of_mem hm
  rw [hP.supers_split hcid h, h]
  exact suffix_append _ _

omit hP hcid hm in
/-- Every class is among its superclasses. -/
theorem Program.mem_supers_self (hcid : cid ≠ kIllegalCid) (hlt : cid < P.numClasses) :
    cid ∈ P.supers cid := by
  obtain ⟨n, hn⟩ := Nat.exists_eq_succ_of_ne_zero (Nat.ne_zero_of_lt hlt)
  rw [supers, hn, superChain, if_neg hcid]
  exact mem_cons_self

omit hm in
/-- The chain holds classes of the program. -/
theorem superChain_mem (hm : m ∈ P.superChain fuel cid) : m ≠ kIllegalCid ∧ m < P.numClasses := by
  induction fuel generalizing cid with
  | zero => exact absurd hm not_mem_nil
  | succ fuel ih =>
    rw [superChain] at hm
    split_ifs at hm with h0
    · exact absurd hm not_mem_nil
    · rcases mem_cons.mp hm with rfl | hm
      · exact ⟨h0, hcid⟩
      · exact ih (hP.parent_lt cid hcid) hm

/-- Superclasses are classes of the program. -/
theorem Program.WellFormed.mem_supers : m ≠ kIllegalCid ∧ m < P.numClasses :=
  superChain_mem hP hcid hm

/-- Superclasses of superclasses are superclasses. -/
theorem Program.WellFormed.mem_supers_trans (hm' : m' ∈ P.supers m) : m' ∈ P.supers cid :=
  (hP.supers_suffix hcid hm).subset hm'

/-- Of two superclasses of a class, one is a superclass of the other. -/
theorem Program.WellFormed.supers_total
    (hm' : m' ∈ P.supers cid) : m' ∈ P.supers m ∨ m ∈ P.supers m' := by
  have hmem := hP.mem_supers hcid hm
  have hmem' := hP.mem_supers hcid hm'
  rcases suffix_or_suffix_of_suffix (hP.supers_suffix hcid hm) (hP.supers_suffix hcid hm')
    with h | h
  · exact .inr (h.subset (P.mem_supers_self hmem.1 hmem.2))
  · exact .inl (h.subset (P.mem_supers_self hmem'.1 hmem'.2))

end

/-! ## Ranges of subclasses -/

/-- The ranges of a class hold its concrete subclasses. -/
theorem Program.inRange_iff : P.inRange cid x ↔ cid ∈ P.supers x ∧ P.isConcreteClass x := by
  simp [inRange, isSubclass]

/-- What the loop over `sub_cid` has established when it is about to look at `n`. -/
structure LoopInvariant (p : ℕ → Bool) (n : ℕ) (ranges : List Interval)
    (start : Option {start // start < n}) : Prop where
  runs : ∀ I ∈ ranges, (∀ x ∈ I, p x) ∧ I.end_ < n ∧ (I.begin_ = 0 ∨ p (I.begin_ - 1) = false) ∧
    p I.end_ = false
  closed : start = none → n = 0 ∨ p (n - 1) = false
  opened : ∀ s, start = some s → (s.1 = 0 ∨ p (s.1 - 1) = false) ∧ ∀ x, s.1 ≤ x → x < n → p x
  covered : ∀ x < n, p x → Covers ranges x ∨ ∃ s, start = some s ∧ s.1 ≤ x

/-- **The loop over the class ids** closes a range whenever the next id is not in it. -/
theorem subclassRangesLoop_invariant (P : Program Fn) (cid n : ℕ) :
    LoopInvariant (P.inRange cid) n (P.subclassRangesLoop cid n).1
      (P.subclassRangesLoop cid n).2 := by
  induction n with
  | zero => exact ⟨by simp [subclassRangesLoop], by simp, by
      simp [subclassRangesLoop], by simp⟩
  | succ n ih =>
    rw [subclassRangesLoop]
    generalize P.subclassRangesLoop cid n = state at ih
    obtain ⟨ranges, start⟩ := state
    obtain ⟨hruns, hclosed, hopened, hcovered⟩ := ih
    have hruns' := fun I hI => And.imp_right (And.imp_left Nat.lt_succ_of_lt) (hruns I hI)
    -- Whether a range is open, and whether `n` is in range.
    rcases start with _ | ⟨s, hs⟩ <;> dsimp only <;> split_ifs with hin
    · refine ⟨hruns', by simp, ?_, ?_⟩
      · rintro _ ⟨⟩
        exact ⟨hclosed rfl, fun x h1 h2 =>
          Nat.le_antisymm h1 (Nat.lt_succ_iff.mp h2) ▸ hin⟩
      · intro x hx hpx
        rcases Nat.lt_succ_iff_lt_or_eq.mp hx with hlt | rfl
        · exact .inl ((hcovered x hlt hpx).resolve_right (by simp))
        · exact .inr ⟨_, rfl, le_rfl⟩
    · refine ⟨hruns', fun _ => .inr (by simpa using hin), by simp, ?_⟩
      intro x hx hpx
      rcases Nat.lt_succ_iff_lt_or_eq.mp hx with hlt | rfl
      · exact .inl ((hcovered x hlt hpx).resolve_right (by simp))
      · exact absurd hpx hin
    · obtain ⟨hleft, hholds⟩ := hopened _ rfl
      refine ⟨hruns', by simp, ?_, ?_⟩
      · rintro _ ⟨⟩
        refine ⟨hleft, fun x h1 h2 => ?_⟩
        rcases Nat.lt_succ_iff_lt_or_eq.mp h2 with hlt | rfl
        · exact hholds x h1 hlt
        · exact hin
      · intro x hx hpx
        rcases Nat.lt_succ_iff_lt_or_eq.mp hx with hlt | rfl
        · refine (hcovered x hlt hpx).imp_right ?_
          rintro ⟨_, ⟨⟩, hle⟩
          exact ⟨_, rfl, hle⟩
        · exact .inr ⟨_, rfl, hs.le⟩
    · obtain ⟨hleft, hholds⟩ := hopened _ rfl
      refine ⟨?_, fun _ => .inr (by simpa using hin), by simp, ?_⟩
      · intro I hI
        rcases mem_append.mp hI with hI | hI
        · exact hruns' I hI
        · rw [mem_singleton.mp hI]
          exact ⟨fun x hx => hholds x hx.1 hx.2, Nat.lt_succ_self n, hleft, by simpa using hin⟩
      · intro x hx hpx
        rw [covers_append, covers_cons]
        rcases Nat.lt_succ_iff_lt_or_eq.mp hx with hlt | rfl
        · rcases hcovered x hlt hpx with h | ⟨_, ⟨⟩, hle⟩
          · exact .inl (.inl h)
          · exact .inl (.inr (.inl ⟨hle, hlt⟩))
        · exact absurd hpx hin

variable {I : Interval}

/-- Subclass ranges are runs of subclasses, as long as possible. -/
theorem isRun_of_mem_cidSubclassRanges
    (hI : I ∈ P.cidSubclassRanges cid) : IsRun (P.inRange cid) P.numClasses I := by
  have hinv := subclassRangesLoop_invariant P cid P.numClasses
  rw [cidSubclassRanges] at hI
  generalize P.subclassRangesLoop cid P.numClasses = state at hI hinv
  obtain ⟨ranges, start⟩ := state
  have hrun : ∀ I ∈ ranges, IsRun (P.inRange cid) P.numClasses I := fun I hI =>
    have h := hinv.runs I hI
    ⟨h.1, h.2.1.le, h.2.2.1, .inr h.2.2.2⟩
  rcases start with _ | ⟨s, hs⟩
  · exact hrun I hI
  rcases mem_append.mp hI with hI | hI
  · exact hrun I hI
  · rw [mem_singleton.mp hI]
    obtain ⟨hleft, hholds⟩ := hinv.opened _ rfl
    exact ⟨fun x hx => hholds x hx.1 hx.2, le_rfl, hleft, .inl rfl⟩

/-- Subclass ranges cover all concrete subclasses. -/
theorem covers_cidSubclassRanges (hx : x < P.numClasses) (hin : P.inRange cid x) :
    Covers (P.cidSubclassRanges cid) x := by
  have hinv := subclassRangesLoop_invariant P cid P.numClasses
  rw [cidSubclassRanges]
  generalize P.subclassRangesLoop cid P.numClasses = state at hinv ⊢
  obtain ⟨ranges, start⟩ := state
  rcases start with _ | ⟨s, hs⟩
  · exact (hinv.covered x hx hin).resolve_right (by simp)
  · rw [covers_append, covers_cons]
    rcases hinv.covered x hx hin with h | ⟨_, ⟨⟩, hle⟩
    · exact .inl h
    · exact .inr (.inl ⟨hle, hx⟩)

/-! ## Class ranges of a row -/

variable {selector : TableSelector} {sid : ℕ} {ci : CidInterval Fn}

/-- A class range comes from `null` or from an implementation of the selector in some class. -/
theorem mem_classRanges (h : ci ∈ P.classRanges sid selector) :
    (ci.range.end_ = ci.range.begin_ + 1 ∧ ci.range.end_ = P.nullCid + 1 ∧ ci.function = none) ∨
      ∃ f, ci.function = some f ∧ (sid, f) ∈ P.implementations ci.cid ∧ ci.cid < P.numClasses ∧
        ci.depth = P.cidDepth ci.cid ∧ ci.range ∈ P.cidSubclassRanges ci.cid := by
  rcases mem_append.mp h with h | h
  · left
    unfold nullIntervals at h
    split_ifs at h
    · rw [mem_singleton.mp h]
      exact ⟨rfl, rfl, rfl⟩
    · exact absurd h not_mem_nil
  · right
    simp only [classIntervals, makeIntervals, List.mem_map, List.mem_filter,
      mem_flatMap, mem_range', beq_iff_eq] at h
    obtain ⟨_, ⟨⟨cid, ⟨i, hi, rfl⟩, ⟨sid', f⟩, himpl, I, hI, rfl⟩, rfl⟩, rfl⟩ := h
    refine ⟨f, rfl, himpl, ?_, rfl, hI⟩
    simp only [kIllegalCid]
    omega

/-- An implementation in a class adds the class ranges of all its concrete subclasses. -/
theorem mem_classRanges_of_implementation {f : Fn} (himpl : (sid, f) ∈ P.implementations cid)
    (h0 : cid ≠ kIllegalCid) (hlt : cid < P.numClasses) (hI : I ∈ P.cidSubclassRanges cid) :
    (⟨cid, P.cidDepth cid, I, some f⟩ : CidInterval Fn) ∈ P.classRanges sid selector := by
  refine mem_append.mpr (.inr ?_)
  simp only [classIntervals, makeIntervals, List.mem_map, List.mem_filter,
    mem_flatMap, mem_range', beq_iff_eq]
  refine ⟨_, ⟨⟨cid, ⟨cid - 1, ?_, ?_⟩, (sid, f), himpl, I, hI, rfl⟩, rfl⟩, rfl⟩
  · simp only [kIllegalCid] at h0
    omega
  · simp only [kIllegalCid] at h0 ⊢
    omega

/-- Class ranges hold class ids only. -/
theorem end_le_of_mem_classRanges (hP : P.WellFormed) (h : ci ∈ P.classRanges sid selector) :
    ci.range.end_ ≤ P.numClasses := by
  rcases mem_classRanges h with ⟨-, hnull, -⟩ | ⟨f, -, -, -, -, hI⟩
  · have := hP.nullCid_lt
    omega
  · exact (isRun_of_mem_cidSubclassRanges hI).end_le

/-- Ranges of subclasses are laminar: one class is a superclass of the other, or they share no
subclass. -/
theorem laminar_cidSubclassRanges (hP : P.WellFormed) {cid' : ℕ} {J : Interval}
    (hI : I ∈ P.cidSubclassRanges cid) (hJ : J ∈ P.cidSubclassRanges cid') : Laminar I J := by
  have hrunI := isRun_of_mem_cidSubclassRanges hI
  have hrunJ := isRun_of_mem_cidSubclassRanges hJ
  by_cases hmeet : ∃ x, x ∈ I ∧ x ∈ J
  · obtain ⟨x, hxI, hxJ⟩ := hmeet
    have hx : x < P.numClasses := lt_of_lt_of_le hxI.2 hrunI.end_le
    have hm := (P.inRange_iff.mp (hrunI.holds x hxI)).1
    have hm' := (P.inRange_iff.mp (hrunJ.holds x hxJ)).1
    -- `x` is below both classes, so the classes are above each other.
    rcases hP.supers_total hx hm hm' with h | h
    · refine .inl (hrunJ.within_of_lt hrunI (fun y hy hiny => ?_) hxJ hxI)
      rw [P.inRange_iff] at hiny ⊢
      exact ⟨hP.mem_supers_trans hy hiny.1 h, hiny.2⟩
    · refine .inr (.inl (hrunI.within_of_lt hrunJ (fun y hy hiny => ?_) hxI hxJ))
      rw [P.inRange_iff] at hiny ⊢
      exact ⟨hP.mem_supers_trans hy hiny.1 h, hiny.2⟩
  · push Not at hmeet
    exact laminar_of_disjoint hmeet

/-- Class ranges of a selector are nested or apart. -/
theorem laminar_classRanges (hP : P.WellFormed) {cj : CidInterval Fn}
    (hi : ci ∈ P.classRanges sid selector)
    (hj : cj ∈ P.classRanges sid selector) : Laminar ci.range cj.range := by
  rcases mem_classRanges hi with ⟨hnull, -⟩ | ⟨_, -, -, -, -, hI⟩
  · exact laminar_singleton hnull
  · rcases mem_classRanges hj with ⟨hnull, -⟩ | ⟨_, -, -, -, -, hJ⟩
    · exact (laminar_singleton hnull).symm
    · exact laminar_cidSubclassRanges hP hI hJ

/-! ## `Finalize` -/

variable {a b : Interval}

/-- `Contains` is inclusion. -/
theorem contains_iff : contains a b ↔ b.Within a := by
  have := b.lt
  simp only [contains, Bool.and_eq_true, decide_eq_true_eq, Within]
  omega

/-- The comparison of intervals is a total preorder. -/
theorem isConsistent_compareIntervals : IsConsistent compareIntervals where
  total a b := by
    unfold compareIntervals
    split_ifs <;> omega
  trans a b c h1 h2 := by
    unfold compareIntervals at *
    split_ifs at * <;> omega

/-- Intervals are sorted by their beginnings. -/
theorem begin_le_of_compareIntervals (hcmp : compareIntervals a b ≤ 0) : a.begin_ ≤ b.begin_ := by
  unfold compareIntervals at hcmp
  split_ifs at hcmp <;> omega

/-- Of two laminar intervals in order, the second begins behind the first or lies within it. -/
theorem within_of_compareIntervals (hcmp : compareIntervals a b ≤ 0) (hlam : Laminar a b)
    (hlt : b.begin_ < a.end_) : b.Within a := by
  unfold compareIntervals Interval.length at hcmp
  unfold Laminar Within IsBefore at hlam
  unfold Within
  split_ifs at hcmp <;> omega

/-- **The loop of `Finalize`**, when it has seen `done` and `current` is a union of some of them. -/
theorem mergeRanges_spec {done : List Interval} {current : Interval} {rest : List Interval}
    (hcurrent : ∀ x ∈ current, ∃ K ∈ done, x ∈ K ∧ K.Within current)
    (hsorted : ∀ K ∈ done, ∀ I ∈ rest, compareIntervals K I ≤ 0 ∧ Laminar K I)
    (hrest : rest.Pairwise fun I J => compareIntervals I J ≤ 0 ∧ Laminar I J)
    (hbegin : ∀ I ∈ rest, current.begin_ ≤ I.begin_) :
    Separated (mergeRanges current rest) ∧
      (∀ x, Covers (mergeRanges current rest) x ↔ x ∈ current ∨ Covers rest x) ∧
      ∀ I ∈ mergeRanges current rest, current.begin_ ≤ I.begin_ := by
  induction rest generalizing done current with
  | nil => exact ⟨pairwise_singleton _ _, fun x => by simp [mergeRanges, Covers], by
      simp [mergeRanges]⟩
  | cons next rest ih =>
    obtain ⟨hnext, hrest'⟩ := pairwise_cons.mp hrest
    have hsorted' : ∀ K ∈ next :: done, ∀ I ∈ rest, compareIntervals K I ≤ 0 ∧ Laminar K I := by
      intro K hK I hI
      rcases mem_cons.mp hK with rfl | hK
      · exact hnext I hI
      · exact hsorted K hK I (mem_cons_of_mem _ hI)
    have hbegin' := fun I hI => hbegin I (mem_cons_of_mem next hI)
    have hnextBegin := hbegin next mem_cons_self
    -- Unless it is contained, `next` begins behind `current`.
    have hbehind (hnot : ¬ contains current next) : current.end_ ≤ next.begin_ := by
      by_contra hlt
      obtain ⟨K, hK, hmem, hwithin⟩ := hcurrent next.begin_ ⟨hnextBegin, by omega⟩
      obtain ⟨hcmp, hlam⟩ := hsorted K hK next mem_cons_self
      have hnextK := within_of_compareIntervals hcmp hlam hmem.2
      exact hnot (contains_iff.mpr (hnextK.trans hwithin))
    rw [mergeRanges]
    split_ifs with hcontains hadj
    · -- `next` is dropped: `current` holds all its numbers.
      have hwithin := contains_iff.mp hcontains
      obtain ⟨hsep, hcov, hbeg⟩ := ih hcurrent
        (fun K hK I hI => hsorted K hK I (mem_cons_of_mem _ hI)) hrest' hbegin'
      refine ⟨hsep, fun x => ?_, hbeg⟩
      rw [hcov, covers_cons]
      have := @Within.mem _ _ x hwithin
      tauto
    · -- `next` extends `current`.
      have hb : (extendToIncludeInterval current next).begin_ = current.begin_ := by
        simp only [extendToIncludeInterval]
        omega
      have he : (extendToIncludeInterval current next).end_ = next.end_ := by
        have := next.lt
        simp only [extendToIncludeInterval]
        omega
      have hmem : ∀ x, x ∈ extendToIncludeInterval current next ↔ x ∈ current ∨ x ∈ next := by
        intro x
        have := next.lt
        simp only [mem_iff, hb, he]
        omega
      have hcurrent' : ∀ x ∈ extendToIncludeInterval current next,
          ∃ K ∈ next :: done, x ∈ K ∧ K.Within (extendToIncludeInterval current next) := by
        intro x hx
        rcases (hmem x).mp hx with hx | hx
        · obtain ⟨K, hK, hxK, hwithin⟩ := hcurrent x hx
          refine ⟨K, mem_cons_of_mem _ hK, hxK, hb ▸ hwithin.1, ?_⟩
          have := hwithin.2
          have := next.lt
          omega
        · exact ⟨next, mem_cons_self, hx, hb ▸ hnextBegin, he.ge⟩
      obtain ⟨hsep, hcov, hbeg⟩ := ih hcurrent' hsorted' hrest' (hb ▸ hbegin')
      refine ⟨hsep, fun x => ?_, hb ▸ hbeg⟩
      rw [hcov, covers_cons, hmem, or_assoc]
    · -- `current` is complete.
      have hlt := hbehind hcontains
      obtain ⟨hsep, hcov, hbeg⟩ := ih
        (fun x hx => ⟨next, mem_cons_self, hx, le_rfl, le_rfl⟩) hsorted' hrest'
        (fun I hI => begin_le_of_compareIntervals (hnext I hI).1)
      refine ⟨pairwise_cons.mpr ⟨fun I hI => hlt.trans (hbeg I hI), hsep⟩, fun x => ?_, ?_⟩
      · rw [covers_cons, hcov, covers_cons]
      · intro I hI
        rcases mem_cons.mp hI with rfl | hI
        · exact le_rfl
        · exact hnextBegin.trans (hbeg I hI)

/-- The merged ranges of laminar class ranges are separated and hold the same class ids. -/
theorem mergedRanges_spec (S : Sorters Fn) {classRanges : List (CidInterval Fn)}
    (hlam : ∀ ci ∈ classRanges, ∀ cj ∈ classRanges, Laminar ci.range cj.range) :
    Separated (mergedRanges S classRanges) ∧
      ∀ x, Covers (mergedRanges S classRanges) x ↔ ∃ ci ∈ classRanges, x ∈ ci.range := by
  have hperm := S.intervals.perm compareIntervals (classRanges.map (·.range))
  have hsort := S.intervals.sorted _ isConsistent_compareIntervals (classRanges.map (·.range))
  unfold mergedRanges
  generalize S.intervals.sort compareIntervals (classRanges.map (·.range)) = sorted at hperm hsort
  have hcovers : ∀ x, Covers sorted x ↔ ∃ ci ∈ classRanges, x ∈ ci.range := fun x => by
    simp [Covers, hperm.mem_iff]
  have hlam' : ∀ I ∈ sorted, ∀ J ∈ sorted, Laminar I J := by
    simp only [hperm.mem_iff, List.mem_map]
    rintro _ ⟨ci, hi, rfl⟩ _ ⟨cj, hj, rfl⟩
    exact hlam ci hi cj hj
  cases sorted with
  | nil => exact ⟨List.Pairwise.nil, hcovers⟩
  | cons first rest =>
    obtain ⟨hfirst, hrest⟩ := pairwise_cons.mp hsort
    have hboth : rest.Pairwise fun I J => compareIntervals I J ≤ 0 ∧ Laminar I J :=
      hrest.imp_of_mem fun hI hJ hcmp =>
        ⟨hcmp, hlam' _ (mem_cons_of_mem _ hI) _ (mem_cons_of_mem _ hJ)⟩
    have hdone : ∀ K ∈ [first], ∀ I ∈ rest, compareIntervals K I ≤ 0 ∧ Laminar K I := by
      intro K hK I hI
      rw [mem_singleton.mp hK]
      exact ⟨hfirst I hI, hlam' _ mem_cons_self _ (mem_cons_of_mem _ hI)⟩
    obtain ⟨hsep, hcov, -⟩ := mergeRanges_spec
      (fun x hx => ⟨first, mem_singleton_self _, hx, le_rfl, le_rfl⟩) hdone hboth
      (fun I hI => begin_le_of_compareIntervals (hfirst I hI))
    exact ⟨hsep, fun x => by rw [hcov, ← covers_cons, hcovers]⟩

/-! ## Rows -/

/-- What holds of every row after `SetupSelectorRows`, and is not changed by allocating it. -/
structure IsRowOf (P : Program Fn) (row : SelectorRow Fn) : Prop where
  selector : ∃ selector, P.selectors[row.sid]? = some selector ∧ selector.isUsed ∧
    row.classRanges = P.classRanges row.sid selector
  nonempty : row.ranges ≠ []
  separated : Separated row.ranges
  covers : ∀ x, Covers row.ranges x ↔ ∃ ci ∈ row.classRanges, x ∈ ci.range

variable {row : SelectorRow Fn}

/-- Rows cover class ids only. -/
theorem IsRowOf.end_le (hP : P.WellFormed) (h : IsRowOf P row)
    (hx : Covers row.ranges x) : x < P.numClasses := by
  obtain ⟨ci, hci, hmem⟩ := (h.covers x).mp hx
  obtain ⟨selector, -, -, hranges⟩ := h.selector
  exact hmem.2.trans_le (end_le_of_mem_classRanges hP (hranges ▸ hci))

/-- There is a row for each used selector that finalizes. -/
theorem mem_setupSelectorRows : row ∈ setupSelectorRows P S ↔
    ∃ selector, P.selectors[row.sid]? = some selector ∧ selector.isUsed ∧
      finalize S row.sid selector (P.classRanges row.sid selector) = some row := by
  have hsid {sid selector ranges} (h : finalize S sid selector ranges = some row) :
      row.sid = sid := by
    unfold finalize at h
    split_ifs at h
    cases h
    rfl
  simp only [setupSelectorRows, List.mem_filterMap, Option.ite_none_right_eq_some]
  constructor
  · rintro ⟨⟨selector, sid⟩, hmem, hused, hfin⟩
    obtain rfl := hsid hfin
    exact ⟨selector, mem_zipIdx_iff_getElem?.mp hmem, hused, hfin⟩
  · rintro ⟨selector, hget, hused, hfin⟩
    exact ⟨(selector, row.sid), mem_zipIdx_iff_getElem?.mpr hget, hused, hfin⟩

/-- The rows set up are rows of the program, without offsets. -/
theorem isRowOf_of_mem_setup (hP : P.WellFormed)
    (h : row ∈ setupSelectorRows P S) : IsRowOf P row ∧ row.offset = none := by
  obtain ⟨selector, hget, hused, hfin⟩ := mem_setupSelectorRows.mp h
  have hlam : ∀ ci ∈ P.classRanges row.sid selector, ∀ cj ∈ P.classRanges row.sid selector,
      Laminar ci.range cj.range := fun _ hi _ hj => laminar_classRanges hP hi hj
  obtain ⟨hsep, hcov⟩ := mergedRanges_spec S hlam
  unfold finalize at hfin
  split_ifs at hfin with hempty
  have hrow := Option.some.inj hfin
  have hr : row.ranges = mergedRanges S (P.classRanges row.sid selector) := by rw [← hrow]
  have hc : row.classRanges = P.classRanges row.sid selector := by rw [← hrow]
  refine ⟨⟨⟨selector, hget, hused, hc⟩, ?_, hr ▸ hsep, fun x => by rw [hr, hc, hcov]⟩,
    by rw [← hrow]⟩
  -- A class range has a class id, which some merged range must hold.
  rw [hr]
  intro hnil
  obtain ⟨ci, hci⟩ := exists_mem_of_ne_nil _ fun hnone => hempty (isEmpty_iff.mpr hnone)
  obtain ⟨I, hI, -⟩ := (hcov ci.range.begin_).mpr ⟨ci, hci, begin_mem _⟩
  exact absurd (hnil ▸ hI) not_mem_nil

end DartVm.DispatchTable
