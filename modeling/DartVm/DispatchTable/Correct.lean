import DartVm.DispatchTable.Fill

/-! # Dispatch goes to the nearest implementation

The table is meant to hold, for every selector and concrete class, the code of the nearest
implementation among the superclasses.  The generator writes the implementations of a row in the
order of their depth, counted in an `int16_t`.

* `dispatch_entry`: an entry holds the code of an implementation whose 16-bit depth is the largest.
* `build_dispatches_iff`: so the table is right, whatever sorting does with ties, if and only if
  these have the code of the nearest one (`DepthOrdered`).  That is so in every hierarchy of at most
  32767 levels (`depthOrdered_of_length_le`).
* `deepChain_dispatch_wrong`: with one more level a subclass gets the method it overrides. -/

namespace DartVm.DispatchTable

open DartVm.Interval Postcondition List

variable {Fn α : Type} {P : Program Fn} {S : Sorters Fn} {code : Fn → Option α} {target : Target}

/-! ## What the table is for -/

/-- **The nearest implementation** of `sid` for the class `cid` is `f` in the class `n`: going up
from `cid`, no class before `n` has one. -/
def Program.Nearest (P : Program Fn) (sid cid n : ℕ) (f : Fn) : Prop :=
  ∃ below above, P.supers cid = below ++ n :: above ∧ (sid, f) ∈ P.implementations n ∧
    ∀ m ∈ below, ∀ g, (sid, g) ∉ P.implementations m

/-- The class `m`, above `cid` or `cid` itself, implements the selector with the code `c`. -/
def Program.Candidate (P : Program Fn) (code : Fn → Option α) (sid cid m : ℕ) (c : α) : Prop :=
  m ∈ P.supers cid ∧ ∃ f, (sid, f) ∈ P.implementations m ∧ code f = some c

/-- The number of levels above and including the class, as 16 bits can count it. -/
def Program.depth16 (P : Program Fn) (cid : ℕ) : ℤ := Int.bmod (P.supers cid).length 65536

/-- **Depths that order the implementations**: where the nearest one has code, the candidates of the
largest 16-bit depth have the same code. -/
def Program.DepthOrdered (P : Program Fn) (code : Fn → Option α) : Prop :=
  ∀ sid selector, P.selectors[sid]? = some selector → selector.isUsed →
    ∀ cid < P.numClasses, P.isConcreteClass cid → ∀ n f a, P.Nearest sid cid n f →
      code f = some a → ∀ m c, P.Candidate code sid cid m c →
        (∀ m' c', P.Candidate code sid cid m' c' → P.depth16 m' ≤ P.depth16 m) → c = a

/-- No two rows claim the same slot. -/
def Table.RowsDisjoint (T : Table Fn α) : Prop := T.rows.Pairwise NoSharedSlot

/-- **Dispatch goes to the nearest implementation**: a used selector that some concrete class has
code for has a row, and its entry for the class is that code. -/
def Table.Dispatches (T : Table Fn α) (P : Program Fn) (code : Fn → Option α) : Prop :=
  ∀ sid selector, P.selectors[sid]? = some selector → selector.isUsed →
    ∀ cid < P.numClasses, P.isConcreteClass cid → ∀ n f a, P.Nearest sid cid n f →
      code f = some a → (∃ row ∈ T.rows, row.sid = sid) ∧
        ∀ row ∈ T.rows, row.sid = sid →
          ∃ offset, row.offset = some offset ∧ T.entries[offset + cid]? = some (some a)

/-- All rows side by side stay well below `INT_MAX`. -/
def Program.Fits (P : Program Fn) (target : Target) : Prop :=
  2 * (max target.originElement (target.largestSmallOffset + 1) +
    P.selectors.length * P.numClasses) + P.numClasses < intMax

/-! ## Three rounds -/

/-- The rows of one list are those of the other, but for their offsets. -/
def SameRows (rows rows' : List (SelectorRow Fn)) : Prop :=
  (∀ row' ∈ rows', ∃ row ∈ rows, SameRow row row') ∧ ∀ row ∈ rows, ∃ row' ∈ rows', SameRow row row'

theorem SameRow.trans {r₁ r₂ r₃ : SelectorRow Fn} (h₁ : SameRow r₁ r₂) (h2 : SameRow r₂ r₃) :
    SameRow r₁ r₃ := by
  obtain ⟨_, rfl⟩ := h₁
  obtain ⟨o, rfl⟩ := h2
  exact ⟨o, rfl⟩

theorem SameRows.trans {rows₁ rows₂ rows₃ : List (SelectorRow Fn)} (h₁ : SameRows rows₁ rows₂)
    (h2 : SameRows rows₂ rows₃) : SameRows rows₁ rows₃ := by
  refine ⟨fun r₃ hr3 => ?_, fun r₁ hr1 => ?_⟩
  · obtain ⟨r₂, hr2, h23⟩ := h2.1 r₃ hr3
    obtain ⟨r₁, hr1, h12⟩ := h₁.1 r₂ hr2
    exact ⟨r₁, hr1, h12.trans h23⟩
  · obtain ⟨r₂, hr2, h12⟩ := h₁.2 r₁ hr1
    obtain ⟨r₃, hr3, h23⟩ := h2.2 r₂ hr2
    exact ⟨r₃, hr3, h12.trans h23⟩

variable {rows rows' : List (SelectorRow Fn)}

/-- Rows that change one by one. -/
theorem sameRows_of_forall₂ (h : List.Forall₂ SameRow rows rows') : SameRows rows rows' := by
  induction h with
  | nil => exact ⟨by simp, by simp⟩
  | cons hsame _ ih =>
    refine ⟨fun r hr => ?_, fun r hr => ?_⟩
    · rcases mem_cons.mp hr with rfl | hr
      · exact ⟨_, mem_cons_self, hsame⟩
      · obtain ⟨r', hr', h⟩ := ih.1 r hr
        exact ⟨r', mem_cons_of_mem _ hr', h⟩
    · rcases mem_cons.mp hr with rfl | hr
      · exact ⟨_, mem_cons_self, hsame⟩
      · obtain ⟨r', hr', h⟩ := ih.2 r hr
        exact ⟨r', mem_cons_of_mem _ hr', h⟩

/-- Sorting changes no row. -/
theorem sameRows_of_perm (h : rows'.Perm rows) : SameRows rows rows' :=
  ⟨fun r hr => ⟨r, h.mem_iff.mp hr, r.offset, rfl⟩, fun r hr =>
    ⟨r, h.mem_iff.mpr hr, r.offset, rfl⟩⟩

variable {row : SelectorRow Fn}

/-- Giving a row an offset does not change what it is a row of. -/
theorem IsRowOf.of_sameRow {row' : SelectorRow Fn} (h : IsRowOf P row)
    (hsame : SameRow row row') : IsRowOf P row' := by
  obtain ⟨_, rfl⟩ := hsame
  exact ⟨h.selector, h.nonempty, h.separated, h.covers⟩

/-- Everything free or claimed is below `INT_MAX`. -/
def Bounded (fitter : RowFitter) (rows : List (SelectorRow Fn)) : Prop :=
  (∀ x, Covers fitter.freeSlots x → x < intMax) ∧ ∀ row ∈ rows, ∀ x, row.Claims x → x < intMax

variable {abort : Prop} {minOffset bound n total : ℕ}

/-- Bounds on the ranges carry over. -/
theorem SameRows.ranges (h : SameRows rows rows')
    (hrows : ∀ row ∈ rows, row.ranges ≠ [] ∧ ∀ r ∈ row.ranges, r.end_ ≤ n) :
    ∀ row' ∈ rows', row'.ranges ≠ [] ∧ ∀ r ∈ row'.ranges, r.end_ ≤ n := by
  intro row' hrow'
  obtain ⟨row, hrow, _, rfl⟩ := h.1 row' hrow'
  exact hrows row hrow

/-- **One round** of sorting and fitting keeps the rows packed, and completes if the table can
afford it. -/
theorem round_spec {fitter : RowFitter} (compare : SelectorRow Fn → SelectorRow Fn → ℤ)
    {maxOffset : ℕ} (hpacked : Packed fitter rows) (hbounded : Bounded fitter rows)
    (habort : ¬ abort → Affords fitter rows minOffset bound n total) :
    Returns abort (allocateRows minOffset maxOffset (S.rows.sort compare rows) fitter)
      fun (rows', fitter') => Packed fitter' rows' ∧ Bounded fitter' rows' ∧ SameRows rows rows' ∧
        (¬ abort → ∃ bound', Ready fitter' bound' ∧ bound ≤ bound' ∧
          bound' + pending rows' * n ≤ total ∧
          (total ≤ maxOffset → ∀ row' ∈ rows', row'.offset ≠ none)) := by
  have hperm := S.rows.perm compare rows
  have hpending : pending (S.rows.sort compare rows) = pending rows := hperm.countP_eq _
  have habort' (h : ¬ abort) :
      Affords fitter (S.rows.sort compare rows) minOffset bound n total := by
    obtain ⟨hready, hranges, hmin, hbudget, hsmall⟩ := habort h
    exact ⟨hready, fun row hrow => hranges row (hperm.mem_iff.mp hrow), hmin, hpending ▸ hbudget,
      hsmall⟩
  refine (allocateRows_spec (hpacked.perm hperm) habort').mono ?_
  rintro ⟨rows', fitter'⟩ ⟨hpacked', hsame, hclaims, hfree, hready⟩
  refine ⟨hpacked', ⟨fun x hx => hbounded.1 x (hfree x hx), fun r hr x hx => ?_⟩,
    (sameRows_of_perm hperm).trans (sameRows_of_forall₂ hsame), fun h => ?_⟩
  · rcases hclaims r hr x hx with ⟨r', hr', hx'⟩ | hx'
    · exact hbounded.2 r' (hperm.mem_iff.mp hr') x hx'
    · exact hbounded.1 x hx'
  · obtain ⟨bound', hready', hle, hpay, hall⟩ := hready h
    exact ⟨bound', hready', hle, hpay.trans (habort' h).budget, hall⟩

/-- Before the first round no row has a place. -/
theorem packed_initial (hrows : ∀ row ∈ rows, Separated row.ranges ∧ row.offset = none) :
    Packed RowFitter.initial rows ∧ Bounded RowFitter.initial rows := by
  have hnone : ∀ row ∈ rows, ∀ x, ¬ row.Claims x := by
    rintro row hrow x ⟨o, ho, -⟩
    rw [(hrows row hrow).2] at ho
    cases ho
  refine ⟨⟨pairwise_singleton _ _, fun row hrow => (hrows row hrow).1,
    fun row hrow x hx => absurd hx (hnone row hrow x), ?_⟩, ?_, fun row hrow x hx =>
      absurd hx (hnone row hrow x)⟩
  · exact pairwise_of_forall_mem_list fun row hrow _ _ x hx => hnone row hrow x hx.1
  · rintro x ⟨I, hI, hx⟩
    rw [mem_singleton.mp hI] at hx
    exact hx.2

/-- The initial fitter is ready for any bound. -/
theorem ready_initial (bound : ℕ) : Ready RowFitter.initial bound :=
  ⟨pairwise_singleton _ _, ⟨_, rfl, rfl, Nat.zero_le _⟩, Nat.zero_lt_one⟩

/-- **`ComputeSelectorOffsets`** gives the rows offsets without a common slot. The rounds share one
budget. -/
theorem computeSelectorOffsets_spec
    (hrows : ∀ row ∈ rows, Separated row.ranges ∧ row.offset = none)
    (habort : ¬ abort → Affords .initial rows target.originElement
      (max target.originElement (target.largestSmallOffset + 1)) n total) :
    Returns abort (computeSelectorOffsets target S rows) fun (rows', size) =>
      rows'.Pairwise NoSharedSlot ∧ SameRows rows rows' ∧
      (¬ abort → ∀ row' ∈ rows', row'.offset ≠ none ∧ ∀ x, row'.Claims x → x < size) := by
  obtain ⟨hpacked, hbounded⟩ := packed_initial hrows
  refine (round_spec comparePopularity hpacked hbounded habort).bind ?_
  rintro ⟨rows₁, fitter₁⟩ ⟨hpacked1, hbounded1, hsame1, hready1⟩
  obtain ⟨bound₁, hready1⟩ := exists_of_not_abort hready1
  refine (round_spec comparePopularitySizeRatio hpacked1 hbounded1 fun h =>
    ⟨(hready1 h).1, hsame1.ranges (habort h).ranges, Nat.zero_le _, (hready1 h).2.2.1,
      (habort h).small⟩).bind ?_
  rintro ⟨rows₂, fitter₂⟩ ⟨hpacked2, hbounded2, hsame2, hready2⟩
  obtain ⟨bound₂, hready2⟩ := exists_of_not_abort hready2
  refine (round_spec compareSize hpacked2 hbounded2 fun h => ⟨(hready2 h).1,
    hsame2.ranges (hsame1.ranges (habort h).ranges), ?_, (hready2 h).2.2.1,
    (habort h).small⟩).bind ?_
  · have h₁ := (hready1 h).2.1
    have h2 := (hready2 h).2.1
    omega
  rintro ⟨rows₃, fitter₃⟩ ⟨hpacked3, hbounded3, hsame3, hready3⟩
  have hlast : Returns abort fitter₃.freeSlots.getLast? fun last =>
      fitter₃.freeSlots.getLast? = some last ∧ (¬ abort → last.end_ = intMax) := by
    cases hlast : fitter₃.freeSlots.getLast? with
    | none =>
      refine not_not.mp fun h => ?_
      obtain ⟨_, ⟨-, ⟨last, hlast', -⟩, -⟩, -⟩ := hready3 h
      exact absurd (hlast.symm.trans hlast') (by simp)
    | some last =>
      refine ⟨rfl, fun h => ?_⟩
      obtain ⟨_, ⟨-, ⟨last', hlast', hend, -⟩, -⟩, -⟩ := hready3 h
      cases hlast.symm.trans hlast'
      exact hend
  refine hlast.bind ?_
  rintro last ⟨hlast, hend⟩
  refine ⟨hpacked3.disjoint, (hsame1.trans hsame2).trans hsame3, fun h row hrow => ⟨?_, ?_⟩⟩
  · obtain ⟨_, -, -, -, hall⟩ := hready3 h
    have := (habort h).small
    exact hall (by omega) row hrow
  · -- A claimed slot is not free, so it is in front of the last slot.
    intro x hx
    by_contra hge
    refine hpacked3.taken row hrow x hx ⟨last, mem_of_getLast? hlast, by omega, ?_⟩
    exact (hend h).ge.trans_lt' (hbounded3.2 row hrow x hx)

variable {T : Table Fn α}

/-- What a table was built from. -/
def Table.IsBuilt (T : Table Fn α) (P : Program Fn) (S : Sorters Fn)
    (code : Fn → Option α) : Prop :=
  T.RowsDisjoint ∧ (∀ row ∈ T.rows, IsRowOf P row) ∧ SameRows (setupSelectorRows P S) T.rows ∧
    ∃ size, T.rows.foldlM (fillTable S code) (List.replicate size none) = some T.entries

/-- The ranges of a row hold its classes. -/
theorem IsRowOf.holdsClasses (h : IsRowOf P row) : row.HoldsClasses :=
  fun ci hci x hx => (h.covers x).mpr ⟨ci, hci, hx⟩

theorem length_setupSelectorRows_le : (setupSelectorRows P S).length ≤ P.selectors.length := by
  unfold setupSelectorRows
  simpa using length_filterMap_le _ P.selectors.zipIdx

/-- **The generator** builds a table, at least when the rows fit. -/
theorem build_returns (hP : P.WellFormed) :
    Returns (¬ P.Fits target) (build P target S code) fun T => T.IsBuilt P S code := by
  have hsetup (row) (hrow : row ∈ setupSelectorRows P S) := isRowOf_of_mem_setup hP hrow
  have haffords (h : ¬ ¬ P.Fits target) : Affords .initial (setupSelectorRows P S)
      target.originElement (max target.originElement (target.largestSmallOffset + 1)) P.numClasses
      (max target.originElement (target.largestSmallOffset + 1) +
        P.selectors.length * P.numClasses) := by
    have hle : pending (setupSelectorRows P S) ≤ P.selectors.length :=
      countP_le_length.trans length_setupSelectorRows_le
    have hfits : 2 * _ + P.numClasses < intMax := not_not.mp h
    refine ⟨ready_initial _, fun row hrow => ⟨(hsetup row hrow).1.nonempty, fun r hr => ?_⟩,
      le_max_left _ _, Nat.add_le_add_left (Nat.mul_le_mul_right _ hle) _, by omega⟩
    have hlt := r.lt
    have := (hsetup row hrow).1.end_le hP (x := r.end_ - 1) ⟨r, hr, by omega, by omega⟩
    omega
  refine (computeSelectorOffsets_spec
    (fun row hrow => ⟨(hsetup row hrow).1.separated, (hsetup row hrow).2⟩) haffords).bind ?_
  rintro ⟨rows, size⟩ ⟨hdisjoint, hsame, hall⟩
  have hrows (row) (hrow : row ∈ rows) : IsRowOf P row :=
    let ⟨row₀, hrow0, hsame0⟩ := hsame.1 row hrow
    (hsetup row₀ hrow0).1.of_sameRow hsame0
  refine (fillTables_spec (fun row hrow => (hrows row hrow).holdsClasses)
    fun h row hrow => ?_).with_eq.bind fun entries hfill => ⟨hdisjoint, hrows, hsame, size, hfill.1⟩
  simpa using hall h row hrow

/-- Whatever `build` returns is a built table. -/
theorem build_spec (hP : P.WellFormed) (h : build P target S code = some T) :
    T.IsBuilt P S code := by
  have hreturns : Returns _ (build P target S code) _ := build_returns hP
  simpa [h] using hreturns

/-! ## Class ranges and candidates -/

/-- The depth as the generator stores it, in 16 bits. -/
theorem cidDepth_toInt (cid : ℕ) : (P.cidDepth cid).toInt = P.depth16 cid :=
  Int16.toInt_ofNat'

variable {cid sid m : ℕ} {f : Fn}

/-- An implementation above a concrete class has a class range that holds the class. -/
theorem exists_range_of_implementation (hP : P.WellFormed) (selector : TableSelector)
    (hcid : cid < P.numClasses) (hconcrete : P.isConcreteClass cid) (hm : m ∈ P.supers cid)
    (himpl : (sid, f) ∈ P.implementations m) :
    ∃ ci ∈ P.classRanges sid selector, cid ∈ ci.range ∧ ci.function = some f ∧
      ci.depth = P.cidDepth m := by
  obtain ⟨h0, hlt⟩ := hP.mem_supers hcid hm
  obtain ⟨I, hI, hmem⟩ := covers_cidSubclassRanges hcid (P.inRange_iff.mpr ⟨hm, hconcrete⟩)
  exact ⟨_, mem_classRanges_of_implementation himpl h0 hlt hI, hmem, rfl, rfl⟩

variable {c : α} {selector : TableSelector} {ci : CidInterval Fn} {a : α}

/-- A class range with code that holds a class is that of a candidate. -/
theorem candidate_of_range
    (hci : ci ∈ P.classRanges sid selector) (hmem : cid ∈ ci.range)
    (hcode : ci.function.bind code = some c) :
    P.Candidate code sid cid ci.cid c ∧ ci.depth = P.cidDepth ci.cid := by
  obtain ⟨f, hf, hc⟩ := Option.bind_eq_some_iff.mp hcode
  rcases mem_classRanges hci with ⟨-, -, hnone⟩ | ⟨g, hg, himpl, -, hdepth, hI⟩
  · rw [hnone] at hf
    cases hf
  obtain rfl : f = g := by
    rw [hf] at hg
    exact Option.some.inj hg
  have hrun := isRun_of_mem_cidSubclassRanges hI
  exact ⟨⟨(P.inRange_iff.mp (hrun.holds cid hmem)).1, f, himpl, hc⟩, hdepth⟩

section

variable (hP : P.WellFormed) (h : build P target S code = some T) (hrow : row ∈ T.rows)
  (hcid : cid < P.numClasses) (hconcrete : P.isConcreteClass cid)
  (hcand : P.Candidate code row.sid cid m c)
include hP h hrow hcid hconcrete hcand

/-- **The entry of a class** in a row, with the sorted class ranges split at the
one written last. -/
theorem dispatch_entry_split :
    ∃ offset pre ci post c, row.offset = some offset ∧
      S.classRanges.sort compareDepth row.classRanges = pre ++ ci :: post ∧
      T.entries[offset + cid]? = some (some c) ∧ ci.function.bind code = some c ∧
      P.Candidate code row.sid cid ci.cid c ∧ ci.depth = P.cidDepth ci.cid ∧
      ∀ cj ∈ post, cid ∈ cj.range → cj.function.bind code = none := by
  obtain ⟨hdisjoint, hrows, -, size, hfill⟩ := build_spec hP h
  obtain ⟨selector, -, -, hranges⟩ := (hrows row hrow).selector
  obtain ⟨hm, f, himpl, hcode⟩ := hcand
  obtain ⟨ci₀, hci0, hmem0, hf0, -⟩ :=
    exists_range_of_implementation hP selector hcid hconcrete hm himpl
  obtain ⟨offset, pre, ci, post, c', hoffset, hsplit, hmem, hc', hentry, hpost⟩ :=
    entry_of_row (fun r hr => (hrows r hr).holdsClasses) hdisjoint hfill hrow
      ⟨ci₀, hranges ▸ hci0, hmem0, by simp [hf0, hcode]⟩
  have hci : ci ∈ row.classRanges :=
    (S.classRanges.perm compareDepth row.classRanges).mem_iff.mp (by simp [hsplit])
  obtain ⟨hcand', hdepth⟩ := candidate_of_range (hranges ▸ hci) hmem hc'
  exact ⟨offset, pre, ci, post, c', hoffset, hsplit, hentry, hc', hcand', hdepth, hpost⟩

/-- **The entry of a class** holds the code of a candidate with the largest 16-bit depth. -/
theorem dispatch_entry :
    ∃ offset m c, row.offset = some offset ∧ T.entries[offset + cid]? = some (some c) ∧
      P.Candidate code row.sid cid m c ∧
      ∀ m' c', P.Candidate code row.sid cid m' c' → P.depth16 m' ≤ P.depth16 m := by
  obtain ⟨offset, pre, ci, post, c', hoffset, hsplit, hentry, -, hcand', hdepth, hpost⟩ :=
    dispatch_entry_split hP h hrow hcid hconcrete hcand
  refine ⟨offset, ci.cid, c', hoffset, hentry, hcand', fun m' c'' hother => ?_⟩
  -- The class range of another candidate was written before, so it is not deeper.
  obtain ⟨-, hrows, -⟩ := build_spec hP h
  obtain ⟨selector, -, -, hranges⟩ := (hrows row hrow).selector
  obtain ⟨hm', g, himpl, hcode⟩ := hother
  obtain ⟨cj, hcj, hmemj, hg, hdepthj⟩ :=
    exists_range_of_implementation hP selector hcid hconcrete hm' himpl
  have hsorted := S.classRanges.sorted compareDepth
    (Sorter.isConsistent_key fun ci : CidInterval Fn => ci.depth.toInt) row.classRanges
  have hcj' : cj ∈ pre ++ ci :: post := by
    rw [← hsplit, (S.classRanges.perm compareDepth row.classRanges).mem_iff, hranges]
    exact hcj
  rw [hsplit, pairwise_append] at hsorted
  rw [mem_append, mem_cons] at hcj'
  rw [← cidDepth_toInt, ← cidDepth_toInt, ← hdepth, ← hdepthj]
  rcases hcj' with hpre | rfl | hafter
  · have := hsorted.2.2 cj hpre ci mem_cons_self
    unfold compareDepth at this
    omega
  · exact le_rfl
  · have hnone := hpost cj hafter hmemj
    simp [hg, hcode] at hnone

end

/-! ## When the table is right -/

/-- The nearest implementation with code is a candidate. -/
theorem Program.Nearest.candidate {n : ℕ} (h : P.Nearest sid cid n f)
    (hcode : code f = some a) : P.Candidate code sid cid n a := by
  obtain ⟨below, above, hsupers, himpl, -⟩ := h
  exact ⟨by simp [hsupers], f, himpl, hcode⟩

/-- A used selector with an implementation has a row. -/
theorem exists_row (hP : P.WellFormed) (h : build P target S code = some T)
    (hget : P.selectors[sid]? = some selector) (hused : selector.isUsed)
    (hcid : cid < P.numClasses) (hconcrete : P.isConcreteClass cid)
    (hcand : P.Candidate code sid cid m c) : ∃ row ∈ T.rows, row.sid = sid := by
  obtain ⟨-, -, hsame, -⟩ := build_spec hP h
  obtain ⟨hm, f, himpl, -⟩ := hcand
  obtain ⟨ci, hci, -⟩ := exists_range_of_implementation hP selector hcid hconcrete hm himpl
  have hne : ¬ (P.classRanges sid selector).isEmpty := by
    rw [List.isEmpty_iff]
    exact ne_nil_of_mem hci
  -- `Finalize` keeps the row.
  let ranges := mergedRanges S (P.classRanges sid selector)
  let row : SelectorRow Fn := ⟨sid, selector.callCount, P.classRanges sid selector, ranges,
    (ranges.map (·.length)).sum, none⟩
  have hrow : row ∈ setupSelectorRows P S :=
    mem_setupSelectorRows.mpr ⟨selector, hget, hused, if_neg hne⟩
  obtain ⟨row', hrow', o, rfl⟩ := hsame.2 row hrow
  exact ⟨_, hrow', rfl⟩

/-- If the 16-bit depths order the implementations, dispatch goes to the nearest one. -/
theorem dispatches_of_depthOrdered (hP : P.WellFormed) (hordered : P.DepthOrdered code)
    (h : build P target S code = some T) : T.Dispatches P code := by
  intro sid selector hget hused cid hcid hconcrete n f a hnearest hcode
  have hcand := hnearest.candidate hcode
  refine ⟨exists_row hP h hget hused hcid hconcrete hcand, ?_⟩
  rintro row hrow rfl
  obtain ⟨offset, m, c, hoffset, hentry, hc, hmax⟩ := dispatch_entry hP h hrow hcid hconcrete hcand
  rw [hordered row.sid selector hget hused cid hcid hconcrete n f a hnearest hcode m c hc hmax]
    at hentry
  exact ⟨offset, hoffset, hentry⟩

open Classical in
/-- The class range does not have the code `a`. -/
noncomputable def otherCode (code : Fn → Option α) (a : α) (ci : CidInterval Fn) : Bool :=
  ci.function.bind code ≠ some a

/-- What another code at an entry means. -/
theorem otherCode_iff :
    otherCode code a ci ↔ ci.function.bind code ≠ some a := by
  simp [otherCode]

/-- Sorting routines that put everything but the code `a` last among class ranges of one depth. -/
noncomputable def adversary (code : Fn → Option α) (a : α) : Sorters Fn where
  intervals := Sorter.preferring fun _ => false
  rows := Sorter.preferring fun _ => false
  classRanges := Sorter.preferring (otherCode code a)

/-- If every sorting routine leads to a right table, the 16-bit depths order the implementations. -/
theorem depthOrdered_of_dispatches (hP : P.WellFormed)
    (hbuild : ∀ S, ∃ T, build P target S code = some T)
    (h : ∀ S T, build P target S code = some T → T.Dispatches P code) : P.DepthOrdered code := by
  intro sid selector hget hused cid hcid hconcrete n f a hnearest hcode m c hcand hmax
  by_contra hne
  -- Let the sorting routine put the other candidate last.
  obtain ⟨T, hT⟩ := hbuild (adversary code a)
  obtain ⟨⟨row, hrow, rfl⟩, hright⟩ :=
    h _ T hT sid selector hget hused cid hcid hconcrete n f a hnearest hcode
  obtain ⟨offset, hoffset, hentry⟩ := hright row hrow rfl
  obtain ⟨offset', pre, ci, post, c', hoffset', hsplit, hentry', hci, hcand', hdepth, hpost⟩ :=
    dispatch_entry_split hP hT hrow hcid hconcrete hcand
  obtain rfl : offset = offset' := by simpa [hoffset] using hoffset'
  obtain rfl : a = c' := by simpa [hentry] using hentry'
  obtain ⟨-, hrows, -⟩ := build_spec hP hT
  obtain ⟨selector', -, -, hranges⟩ := (hrows row hrow).selector
  obtain ⟨hm, g, himpl, hg⟩ := hcand
  obtain ⟨cj, hcj, hmemj, hfunction, hdepthj⟩ :=
    exists_range_of_implementation hP selector' hcid hconcrete hm himpl
  have hcodej : cj.function.bind code = some c := by simp [hfunction, hg]
  have hcj' : cj ∈ pre ++ ci :: post := by
    rw [← hsplit, ((adversary code a).classRanges.perm compareDepth row.classRanges).mem_iff,
      hranges]
    exact hcj
  have hlate : otherCode code a cj := otherCode_iff.mpr fun heq =>
    hne (Option.some.inj (hcodej.symm.trans heq))
  have hlast : (pre ++ ci :: post).Pairwise fun x y =>
      compareDepth y x ≤ 0 → otherCode code a x → otherCode code a y :=
    hsplit ▸ Sorter.pairwise_preferring
      (Sorter.isConsistent_key fun ci : CidInterval Fn => ci.depth.toInt) row.classRanges
  rw [mem_append, mem_cons] at hcj'
  rcases hcj' with hpre | rfl | hafter
  · -- It was not written last, so it is less deep than the one that was.
    have hdeep : compareDepth ci cj ≤ 0 := by
      have := hmax _ _ hcand'
      rw [← cidDepth_toInt, ← cidDepth_toInt, ← hdepth, ← hdepthj] at this
      unfold compareDepth
      omega
    have hci' := (pairwise_append.mp hlast).2.2 cj hpre ci mem_cons_self hdeep hlate
    exact otherCode_iff.mp hci' hci
  · exact otherCode_iff.mp hlate hci
  · exact absurd (hpost cj hafter hmemj) (by simp [hcodej])

/-- **The generator completes** when the rows fit. -/
theorem build_completes (hP : P.WellFormed) (hfits : P.Fits target) (S : Sorters Fn)
    (code : Fn → Option α) : ∃ T, build P target S code = some T := by
  obtain ⟨T, hT, -⟩ := ((build_returns hP).mono_abort (not_not_intro hfits)).exists_eq_some
  exact ⟨T, hT⟩

/-! ## Main results -/

/-- In a hierarchy of at most 32767 levels the depths order the implementations. -/
theorem depthOrdered_of_length_le (hP : P.WellFormed)
    (hdepth : ∀ cid < P.numClasses, (P.supers cid).length ≤ 32767) : P.DepthOrdered code := by
  intro sid selector hget hused cid hcid hconcrete n f a hnearest hcode m c hcand hmax
  have h16 : ∀ m' ∈ P.supers cid, P.depth16 m' = (P.supers m').length := by
    intro m' hm'
    have := hdepth m' (hP.mem_supers hcid hm').2
    exact Int.bmod_eq_of_le (by omega) (by omega)
  have hn := hmax n a (hnearest.candidate hcode)
  obtain ⟨below, above, hsupers, himpl, hbelow⟩ := hnearest
  obtain ⟨hm, g, hg, hc⟩ := hcand
  rw [h16 n (by simp [hsupers]), h16 m hm] at hn
  -- The nearest implementation is the deepest, so the other one is in the same class.
  rw [hsupers, mem_append, mem_cons] at hm
  rcases hm with hm | rfl | hm
  · exact absurd hg (hbelow m hm g)
  · obtain rfl := hP.functional m sid f g himpl hg
    exact Option.some.inj (hc.symm.trans hcode)
  obtain ⟨between, rest, rfl⟩ := append_of_mem hm
  have hsplit : P.supers cid = (below ++ n :: between) ++ m :: rest := by simp [hsupers]
  have hmup : P.supers m = m :: rest := hP.supers_split hcid hsplit
  rw [hP.supers_split hcid hsupers, hmup] at hn
  simp only [length_cons, length_append] at hn
  omega

/-- **The dispatch table.** The generator completes when the rows fit; and then, for every sorting
routine, no two rows share a slot and dispatch goes to the nearest implementation, if and only if
the 16-bit depths order the implementations. -/
theorem build_dispatches_iff (P : Program Fn) (hP : P.WellFormed) (target : Target)
    (code : Fn → Option α) :
    (P.Fits target → ∀ S, ∃ T, build P target S code = some T) ∧
      ((∀ S, ∃ T, build P target S code = some T) →
        ((∀ S T, build P target S code = some T → T.RowsDisjoint ∧ T.Dispatches P code) ↔
          P.DepthOrdered code)) := by
  refine ⟨fun hfits S => build_completes hP hfits S code, fun hbuild => ⟨fun h => ?_, ?_⟩⟩
  · exact depthOrdered_of_dispatches hP hbuild fun S T hT => (h S T hT).2
  · intro hordered S T hT
    exact ⟨(build_spec hP hT).1, dispatches_of_depthOrdered hP hordered hT⟩

/-! ## Chains of classes -/

/-- The classes `1, …, n`, each the superclass of the next. The first and the last implement the
selector, by `false` and `true`. -/
def chain (n : ℕ) : Program Bool where
  numClasses := n + 1
  classes cid :=
    if cid = 0 ∨ n < cid then none
    else some {
      isAbstract := false
      superClass := if cid = 1 then none else some (cid - 1)
      functions :=
        if cid = 1 then [⟨false, true, some 0, false, none⟩]
        else if cid = n then [⟨true, true, some 0, true, none⟩] else [] }
  selectors := [⟨1, false, false, false⟩]
  nullCid := 1

section Chain

variable {n cid m fuel : ℕ}

/-- In a chain every class extends the one before it. -/
theorem parentCid_chain (hcid : cid ≤ n) : (chain n).parentCid cid = cid - 1 := by
  unfold Program.parentCid chain
  dsimp only
  by_cases h0 : cid = 0
  · simp [h0, kIllegalCid]
  · rw [if_neg (by omega)]
    by_cases h1 : cid = 1 <;> simp [h1, kIllegalCid]

/-- All classes of a chain are concrete. -/
theorem isConcreteClass_chain (h0 : cid ≠ 0) (hcid : cid ≤ n) :
    (chain n).isConcreteClass cid := by
  unfold Program.isConcreteClass chain
  dsimp only
  rw [if_neg (by omega)]
  rfl

/-- The superclasses of a class of a chain are those before it. -/
theorem superChain_chain (hcid : cid ≤ n) (hfuel : cid ≤ fuel) :
    ((chain n).superChain fuel cid).length = cid ∧
      ∀ m, m ∈ (chain n).superChain fuel cid ↔ 1 ≤ m ∧ m ≤ cid := by
  induction cid generalizing fuel with
  | zero => cases fuel <;> simp [Program.superChain, kIllegalCid] <;> omega
  | succ cid ih =>
    obtain ⟨fuel, rfl⟩ : ∃ k, fuel = k + 1 := ⟨fuel - 1, by omega⟩
    obtain ⟨hlen, hmem⟩ := ih (Nat.le_of_succ_le hcid) (Nat.le_of_succ_le_succ hfuel)
    rw [Program.superChain, if_neg (show cid + 1 ≠ kIllegalCid from Nat.succ_ne_zero cid),
      parentCid_chain hcid, Nat.add_sub_cancel]
    refine ⟨by simp [hlen], fun m => ?_⟩
    rw [mem_cons, hmem]
    omega

theorem length_supers_chain (hcid : cid ≤ n) : ((chain n).supers cid).length = cid :=
  (superChain_chain hcid (hcid.trans (Nat.le_succ n))).1

/-- The depth of a class of a chain wraps around at 2^15. -/
theorem depth16_chain (hcid : cid ≤ n) : (chain n).depth16 cid = Int.bmod cid 65536 :=
  congrArg (fun k : ℕ => Int.bmod k 65536) (length_supers_chain hcid)

/-- The superclasses of a class of a chain. -/
theorem mem_supers_chain (hcid : cid ≤ n) : m ∈ (chain n).supers cid ↔ 1 ≤ m ∧ m ≤ cid :=
  (superChain_chain hcid (hcid.trans (Nat.le_succ n))).2 m

/-- Only the first and the last class of a chain implement the selector. -/
theorem mem_implementations_chain {impl : ℕ × Bool} : impl ∈ (chain n).implementations cid ↔
    (cid = 1 ∧ 1 ≤ n ∧ impl = (0, false)) ∨ (cid = n ∧ 1 < n ∧ impl = (0, true)) := by
  have hnone : (chain n).selectors[0]?.any (·.tornOff) = false := rfl
  unfold Program.implementations
  by_cases hout : cid = 0 ∨ n < cid
  · have hclass : (chain n).classes cid = none := if_pos hout
    rw [hclass]
    simp
    omega
  · have hclass : (chain n).classes cid = some _ := if_neg hout
    rw [hclass]
    split_ifs with h1 hn
    · simp only [Program.functionImplementations, hnone, flatMap_singleton, if_true,
        Bool.false_eq_true, if_false, mem_singleton]
      refine ⟨fun h => .inl ⟨h1, by omega, h⟩, ?_⟩
      rintro (⟨-, -, h⟩ | ⟨hn, hlt, -⟩)
      · exact h
      · omega
    · simp only [Program.functionImplementations, hnone, flatMap_singleton, if_true,
        Bool.false_eq_true, if_false, mem_singleton]
      refine ⟨fun h => .inr ⟨hn, by omega, h⟩, ?_⟩
      rintro (⟨h1', -, -⟩ | ⟨-, -, h⟩)
      · exact absurd h1' h1
      · exact h
    · refine ⟨fun h => absurd h (by simp), ?_⟩
      rintro (⟨h1', -, -⟩ | ⟨hn', -, -⟩)
      · exact absurd h1' h1
      · exact absurd hn' hn

/-- A chain is a well-formed program. -/
theorem wellFormed_chain (hn : 1 ≤ n) : (chain n).WellFormed where
  forest cid hcid := by
    have hle : cid ≤ n := Nat.lt_succ_iff.mp hcid
    refine ⟨cid, Nat.le_of_lt hcid, ?_⟩
    have hiter : ∀ k c, c ≤ n → (chain n).parentCid^[k] c = c - k := by
      intro k
      induction k with
      | zero => exact fun c _ => rfl
      | succ k ih =>
        intro c hc
        rw [Function.iterate_succ_apply, parentCid_chain hc, ih (c - 1) (by omega)]
        omega
    rw [hiter cid cid hle, Nat.sub_self]
    rfl
  parent_lt cid hcid := by
    have hle : cid ≤ n := Nat.lt_succ_iff.mp hcid
    rw [parentCid_chain hle]
    omega
  nullCid_lt := Nat.lt_succ_of_le hn
  selector_lt cid impl himpl := by
    rcases mem_implementations_chain.mp himpl with ⟨-, -, rfl⟩ | ⟨-, -, rfl⟩ <;> exact one_pos
  functional cid sid f g hf hg := by
    rcases mem_implementations_chain.mp hf with ⟨h₁, -, hf⟩ | ⟨h₁, h2, hf⟩ <;>
      rcases mem_implementations_chain.mp hg with ⟨h3, -, hg⟩ | ⟨h3, h4, hg⟩
    · exact (Prod.mk.inj hf).2.trans (Prod.mk.inj hg).2.symm
    · omega
    · omega
    · exact (Prod.mk.inj hf).2.trans (Prod.mk.inj hg).2.symm

/-- A short chain dispatches to the nearest implementation. -/
theorem build_dispatches_short_chain :
    (∀ S, ∃ T, build (chain 3) Target.x64 S some = some T) ∧
      ∀ S T, build (chain 3) Target.x64 S some = some T →
        T.RowsDisjoint ∧ T.Dispatches (chain 3) some := by
  have hP : (chain 3).WellFormed := wellFormed_chain (by decide)
  obtain ⟨hfits, hiff⟩ := build_dispatches_iff (chain 3) hP Target.x64 some
  have hbuild := hfits (by unfold Program.Fits; decide)
  refine ⟨hbuild, (hiff hbuild).mpr (depthOrdered_of_length_le hP fun cid hcid => ?_)⟩
  have hle : cid ≤ 3 := Nat.lt_succ_iff.mp hcid
  rw [length_supers_chain hle]
  omega

/-- The nearest implementation for the last class is its own. -/
theorem nearest_chain (hn : 1 < n) : (chain n).Nearest 0 n n true := by
  refine ⟨[], (chain n).superChain n ((chain n).parentCid n), ?_,
    mem_implementations_chain.mpr (.inr ⟨rfl, hn, rfl⟩), by simp⟩
  exact if_neg (show n ≠ 0 by omega)

/-- **A chain that is too deep.** With 32768 levels the last class overrides the method of the
first, but its entry holds the first one's code. -/
theorem deepChain_dispatch_wrong : ∃ S T row offset,
    build (chain 32768) Target.x64 S some = some T ∧ row ∈ T.rows ∧ row.sid = 0 ∧
      row.offset = some offset ∧ (chain 32768).isConcreteClass 32768 ∧
      (chain 32768).Nearest 0 32768 32768 true ∧
      T.entries[offset + 32768]? = some (some false) := by
  have hP : (chain 32768).WellFormed := wellFormed_chain (by omega)
  have hconcrete : (chain 32768).isConcreteClass 32768 := isConcreteClass_chain (by omega) le_rfl
  have hnearest : (chain 32768).Nearest 0 32768 32768 true := nearest_chain (by omega)
  have hlt : 32768 < (chain 32768).numClasses := Nat.lt_succ_self _
  have hfits : (chain 32768).Fits Target.x64 := by
    unfold Program.Fits
    decide
  obtain ⟨T, hT⟩ := build_completes hP hfits (adversary some false) some
  obtain ⟨row, hrow, hsid⟩ := exists_row hP hT rfl rfl hlt hconcrete (hnearest.candidate rfl)
  obtain ⟨offset, m, c, hoffset, hentry, ⟨hm, f, himpl, hf⟩, hmax⟩ :=
    dispatch_entry hP hT hrow hlt hconcrete (hsid ▸ hnearest.candidate rfl)
  refine ⟨_, T, row, offset, hT, hrow, hsid, hoffset, hconcrete, hnearest, ?_⟩
  -- The first class has depth 1, the last one, in 16 bits, depth -32768.
  have hfirst : (chain 32768).Candidate some row.sid 32768 1 false := by
    refine ⟨(mem_supers_chain le_rfl).mpr (by omega), false, ?_, rfl⟩
    exact mem_implementations_chain.mpr (.inl ⟨rfl, by omega, by rw [hsid]⟩)
  have hdeeper := hmax 1 false hfirst
  rcases mem_implementations_chain.mp himpl with ⟨-, -, heq⟩ | ⟨rfl, -, -⟩
  · obtain rfl : c = false := by
      rw [(Prod.mk.inj heq).2] at hf
      exact (Option.some.inj hf).symm
    exact hentry
  · rw [depth16_chain le_rfl] at hdeeper
    exact absurd hdeeper (by decide)

end Chain

end DartVm.DispatchTable
