import DartVm.RegExp.Segments

/-! # GenerateBranches

`GenerateBranches` emits code that leads every character of its interval to the label of its
segment.  Each of its calls meets its precondition, the `ASSERT`s in it hold, and it is about fewer
boundaries than the call that makes it.

* `splitSearchSpace_spec`: a split leaves two smaller calls.
* `Emits`: what a call leaves behind.
* `generateBranches_emits`: every call that is ready leaves that behind. -/

namespace DartVm.RegExp

open ForwardCode Call Nat CharacterCheck

/-! ## SplitSearchSpace -/

/-- The search passes the boundaries up to the border and stops at the first one above it. -/
theorem skipUpTo_spec (ranges : List ℕ) (border left i : ℕ) :
    i ≤ skipUpTo ranges border left i ∧ skipUpTo ranges border left i ≤ i + left ∧
      (∀ k, i ≤ k → k < skipUpTo ranges border left i → edge ranges k ≤ border) ∧
      (skipUpTo ranges border left i < i + left →
        border < edge ranges (skipUpTo ranges border left i)) := by
  induction left generalizing i with
  | zero =>
    rw [skipUpTo]
    exact ⟨le_rfl, le_rfl, fun k hk hk' => by omega, fun h => by omega⟩
  | succ left ih =>
    rw [skipUpTo]
    split
    next hgt => exact ⟨le_rfl, by omega, fun k hk hk' => by omega, fun _ => hgt⟩
    next hle =>
      obtain ⟨h1, h2, h3, h4⟩ := ih (i + 1)
      refine ⟨by omega, by omega, fun k hk hk' => ?_, fun h => h4 (by omega)⟩
      rcases eq_or_lt_of_le hk with rfl | hlt
      · omega
      · exact h3 k hlt hk'

/-- The second loop is the first one, unless it finds no boundary above the border. -/
theorem scanForward_eq (ranges : List ℕ) (border left i : ℕ) :
    scanForward ranges border left i = if skipUpTo ranges border left i < i + left then
      some (skipUpTo ranges border left i) else none := by
  induction left generalizing i with
  | zero => rw [scanForward, skipUpTo, if_neg (by omega)]
  | succ left ih =>
    rw [scanForward, skipUpTo, ih]
    split_ifs <;> first | rfl | omega

/-- **A border** of a call: the boundaries below `newStart` are at most the border, which ends a
page. -/
structure IsBorder (ranges : List ℕ) (call : Call) (newStart border : ℕ) : Prop where
  start_lt : call.startIndex < newStart
  le_end : newStart ≤ call.endIndex
  aligned : border % kTableSize = 0
  first_lt : edge ranges call.startIndex < border
  lt_max : border < call.maxChar
  below : ∀ k, call.startIndex ≤ k → k < newStart → edge ranges k ≤ border
  above : newStart < call.endIndex → border < edge ranges newStart
  first_page : edge ranges call.endIndex ≤ border →
    border = page (edge ranges call.startIndex) + kTableSize

section Split

variable {ranges : List ℕ} {call : Call}

/-- Characters of 16 bits are not truncated. -/
theorem toUint16_natCast {n : ℕ} (h : n < 65536) : toUint16 n = n := by
  unfold toUint16
  omega

/-- A page ends where the next one begins. -/
theorem page_add_mod (c : ℕ) : (page c + kTableSize) % kTableSize = 0 := by
  rw [page, add_mod_right, mul_mod_left]

/-- A character lies below the end of its page. -/
theorem lt_page_add (c : ℕ) : c < page c + kTableSize := by
  unfold page kTableSize
  omega

variable (hready : Ready ranges call)

include hready

/-- The end of the first page is a border, if the first boundary lies on it. -/
theorem isBorder_first (hlt : call.startIndex < call.endIndex)
    (hpages : call.maxChar / kTableSize ≠ call.minChar / kTableSize)
    (hfirst : call.minChar / kTableSize = edge ranges call.startIndex / kTableSize) :
    toUint16 (page (edge ranges call.startIndex) + kTableSize : ℕ) =
        page (edge ranges call.startIndex) + kTableSize ∧
      IsBorder ranges call
        (skipUpTo ranges (page (edge ranges call.startIndex) + kTableSize)
          (call.endIndex - call.startIndex) call.startIndex)
        (page (edge ranges call.startIndex) + kTableSize) := by
  have hmax := hready.max_lt
  have hle := hready.edge_le le_rfl hready.start_le le_rfl
  have hend := hready.le_max
  have hmod := hready.page_end.resolve_right hpages
  have hborder : page (edge ranges call.startIndex) + kTableSize < call.maxChar := by
    unfold page kTableSize at *
    omega
  obtain ⟨h1, h2, h3, h4⟩ := skipUpTo_spec ranges (page (edge ranges call.startIndex) + kTableSize)
    (call.endIndex - call.startIndex) call.startIndex
  refine ⟨toUint16_natCast (by omega), ?_, by omega, page_add_mod _, lt_page_add _, hborder, h3,
    fun h => h4 (by omega), fun _ => rfl⟩
  -- The first boundary itself is below the border.
  by_contra hge
  have hstart : skipUpTo ranges (page (edge ranges call.startIndex) + kTableSize)
      (call.endIndex - call.startIndex) call.startIndex = call.startIndex := by omega
  have := h4 (by omega)
  rw [hstart] at this
  have := lt_page_add (edge ranges call.startIndex)
  omega

/-- The end of the page of a later boundary is a border, where a boundary lies beyond it. -/
theorem isBorder_chop {chop newStart : ℕ}
    (hchop : call.startIndex < chop)
    (hscan : scanForward ranges (page (edge ranges chop) + kTableSize) (call.endIndex - chop) chop =
      some newStart) :
    toUint16 (page (edge ranges chop) + kTableSize : ℕ) = page (edge ranges chop) + kTableSize ∧
      IsBorder ranges call newStart (page (edge ranges chop) + kTableSize) := by
  rw [scanForward_eq, Option.ite_none_right_eq_some] at hscan
  obtain ⟨h2, heq⟩ := hscan
  obtain ⟨h1, -, h3, h4⟩ := skipUpTo_spec ranges (page (edge ranges chop) + kTableSize)
    (call.endIndex - chop) chop
  replace h4 := h4 h2
  rw [Option.some_inj.mp heq] at h1 h2 h3 h4
  have hmax := hready.max_lt
  have hend := hready.le_max
  have hlast := hready.edge_le (i := newStart) (by omega) (by omega) le_rfl
  have hfirst := hready.edge_le (j := chop) le_rfl (by omega) (by omega)
  have hlt := lt_page_add (edge ranges chop)
  refine ⟨toUint16_natCast (by omega), by omega, by omega, page_add_mod _, by omega, by omega, ?_,
    fun _ => h4, fun h => by omega⟩
  intro k hk hk'
  rcases lt_or_ge k chop with hbelow | habove
  · have := hready.edge_le hk (le_of_lt hbelow) (by omega)
    omega
  · exact h3 k habove hk'

/-- **`SplitSearchSpace`** returns a split that `GenerateBranches` accepts; the characters below its
border end with a page or are on the first one. -/
theorem splitSearchSpace_spec (hmany : 6 < call.endIndex - call.startIndex)
    (hpages : call.maxChar / kTableSize ≠ call.minChar / kTableSize)
    (hfirst : call.minChar / kTableSize = edge ranges call.startIndex / kTableSize) :
    ∃ newStart newEnd border,
      splitSearchSpace ranges call.startIndex call.endIndex = some (newStart, newEnd, border) ∧
      SplitAsserts ranges call (edge ranges call.endIndex - 1) newStart newEnd border ∧
      ((border - 1) % kTableSize = kTableSize - 1 ∨
        (border - 1) / kTableSize = call.minChar / kTableSize) := by
  obtain ⟨huint, hfirstBorder⟩ := isBorder_first hready (by omega) hpages hfirst
  -- Whether or not the search space is halved, there is a border.
  obtain ⟨newStart, border, hborder, heq⟩ : ∃ newStart border,
      IsBorder ranges call newStart border ∧
      splitSearchSpace ranges call.startIndex call.endIndex =
        if newStart > call.startIndex then
          if border ≥ edge ranges call.endIndex then
            some (call.endIndex, call.endIndex - 1, edge ranges call.endIndex)
          else some (newStart,
            if edge ranges (newStart - 1) = border then newStart - 2 else newStart - 1, border)
        else none := by
    rw [splitSearchSpace]
    dsimp only
    rw [huint]
    split
    next hchop =>
      cases hscan : scanForward ranges
          (page (edge ranges ((call.endIndex + call.startIndex) / 2)) + kTableSize)
          (call.endIndex - (call.endIndex + call.startIndex) / 2)
          ((call.endIndex + call.startIndex) / 2) with
      | none => exact ⟨_, _, hfirstBorder, rfl⟩
      | some i =>
        obtain ⟨huint', hborder⟩ := isBorder_chop hready (by omega) hscan
        exact ⟨_, _, hborder, by rw [huint']⟩
    next => exact ⟨_, _, hfirstBorder, rfl⟩
  rw [heq, if_pos hborder.start_lt]
  have hstart := hborder.start_lt
  have hend := hborder.le_end
  have hmin := hready.min_lt
  have hlt := hborder.first_lt
  have hmax := hborder.lt_max
  have hlast := hready.edge_le le_rfl hready.start_le le_rfl
  by_cases hge : border ≥ edge ranges call.endIndex
  · rw [if_pos hge]
    have hpage := hborder.first_page hge
    have hbefore := hready.edge_le (i := call.endIndex - 1) (j := call.endIndex) (by omega)
    refine ⟨_, _, _, rfl, ⟨fun _ => rfl, by omega, le_rfl, by omega, by omega, by omega,
      by omega, by omega, by omega, .inr ⟨rfl, rfl, rfl, by omega⟩, by omega⟩, .inr ?_⟩
    unfold page kTableSize at *
    omega
  · rw [if_neg hge]
    have hbelow := hborder.below (newStart - 1) (by omega) (by omega)
    have habove : border < edge ranges newStart := by
      rcases eq_or_lt_of_le hend with rfl | hlt
      · omega
      · exact hborder.above hlt
    have hmod : (border - 1) % kTableSize = kTableSize - 1 := by
      have := hborder.aligned
      unfold kTableSize at *
      omega
    by_cases hon : edge ranges (newStart - 1) = border
    · rw [if_pos hon]
      -- The boundary on the border belongs to neither part.
      have htwo : call.startIndex + 1 < newStart := by
        rcases Nat.eq_or_lt_of_le hstart with heq | h
        · rw [← heq, succ_sub_one] at hon
          omega
        · exact h
      have hprev := hready.edge_le (i := newStart - 2) (j := newStart - 1) (by omega) (by omega)
      refine ⟨_, _, _, rfl, ⟨fun h => by omega, by omega, hend, hstart, by omega,
        .inr ⟨by omega, ?_⟩, by omega, hmax, by omega, .inl habove, .inr (by omega)⟩, .inl hmod⟩
      rw [show newStart - 2 + 1 = newStart - 1 by omega, hon]
    · rw [if_neg hon]
      exact ⟨_, _, _, rfl, ⟨fun h => by omega, by omega, hend, hstart, by omega,
        .inl (by omega), by omega, hmax, by omega, .inl habove, .inr (by omega)⟩, .inl hmod⟩

end Split

/-! ## The recursive calls -/

section Calls

variable {ranges ranges' : List ℕ} {call : Call} {newStart newEnd border even odd label c : ℕ}

/-- The call after a test for the characters below the first boundary. -/
def Call.tail (call : Call) (first : ℕ) : Call :=
  { call with startIndex := call.startIndex + 1, minChar := first }

/-- The call for the characters below a border. -/
def Call.low (call : Call) (newEnd border : ℕ) : Call :=
  { call with endIndex := newEnd, maxChar := border - 1 }

/-- The call for the characters from a border on. -/
def Call.high (call : Call) (newStart border : ℕ) : Call :=
  { call with startIndex := newStart, minChar := border }

/-- The call after a cut has fewer boundaries. -/
theorem Call.boundaries_inner_lt (h : call.startIndex < call.endIndex) :
    call.inner.boundaries < call.boundaries := by
  simp only [Call.boundaries, Call.inner]
  omega

/-- The call for the tail has fewer boundaries. -/
theorem Call.boundaries_tail_lt (h : call.startIndex < call.endIndex) (first : ℕ) :
    (call.tail first).boundaries < call.boundaries := by
  simp only [Call.boundaries, Call.tail]
  omega

section Split

variable (h : SplitAsserts ranges call (edge ranges call.endIndex - 1) newStart newEnd border)

include h

/-- The call below the border has fewer boundaries. -/
theorem Call.boundaries_low_lt : (call.low newEnd border).boundaries < call.boundaries := by
  obtain ⟨-, hstart, -, -, hend, -⟩ := h
  simp only [Call.boundaries, Call.low]
  omega

/-- The call above the border has fewer boundaries. -/
theorem Call.boundaries_high_lt : (call.high newStart border).boundaries < call.boundaries := by
  obtain ⟨-, -, hle, hstart, -⟩ := h
  simp only [Call.boundaries, Call.high]
  omega

end Split

/-- The call for the tail is ready. -/
theorem Ready.tail (hready : Ready ranges call) (hlt : call.startIndex < call.endIndex)
    (hmany : 6 < call.endIndex - call.startIndex)
    (hpages : call.maxChar / kTableSize ≠ call.minChar / kTableSize) :
    Ready ranges (call.tail (edge ranges call.startIndex)) where
  start_le := hlt
  end_lt := hready.end_lt
  sorted k hk hk' := hready.sorted k (le_of_succ_le hk) hk'
  min_lt := hready.sorted call.startIndex (le_refl _) hlt
  le_max := hready.le_max
  max_lt := hready.max_lt
  page_end := Or.inl (hready.page_end.resolve_right hpages)
  before _ i hi := by
    change edge ranges i ≤ edge ranges call.startIndex
    rcases eq_or_lt_of_le (le_of_lt_succ hi) with rfl | hlt'
    · exact le_rfl
    · have := hready.before hmany i hlt'
      have := hready.min_lt
      omega

/-- Above the first boundary the sides change places. -/
theorem LeadsTo.tail (hlt : call.startIndex < call.endIndex) (hc : edge ranges call.startIndex ≤ c)
    (hleads : LeadsTo ranges call.startIndex call.endIndex even odd c label) :
    LeadsTo ranges (call.startIndex + 1) call.endIndex odd even c label := by
  rcases hleads with ⟨hlt', -⟩ | ⟨i, hi, rfl⟩
  · omega
  · rcases eq_or_lt_of_le hi.start_le with rfl | hgt
    · exact .inl ⟨hi.lt_edge hlt, by rw [side, if_pos (by omega)]⟩
    · exact .inr ⟨i, ⟨hgt, hi.le_end, hi.edge_le, hi.lt_edge⟩, side_swap (by omega)⟩

section Split

variable (hready : Ready ranges call)
  (h : SplitAsserts ranges call (edge ranges call.endIndex - 1) newStart newEnd border)

include hready h

/-- The call below the border is ready. -/
theorem Ready.low
    (hpage : (border - 1) % kTableSize = kTableSize - 1 ∨
      (border - 1) / kTableSize = call.minChar / kTableSize) :
    Ready ranges (call.low newEnd border) := by
  obtain ⟨-, hstart, -, -, hend, -, -, hmax, hlt, -, -⟩ := h
  have hlen := hready.end_lt
  have hbound := hready.max_lt
  exact {
    start_le := hstart
    end_lt := by change newEnd < ranges.length; omega
    sorted := fun k hk hk' => hready.sorted k hk (by change k < newEnd at hk'; omega)
    min_lt := hready.min_lt
    le_max := by change edge ranges newEnd ≤ border - 1; omega
    max_lt := by change border - 1 < 65536; omega
    page_end := hpage
    before := fun hmany => hready.before (by
      change 6 < newEnd - call.startIndex at hmany
      omega) }

/-- Below the border only the boundaries below it matter. -/
theorem LeadsTo.low (hc : c < border)
    (hleads : LeadsTo ranges call.startIndex call.endIndex even odd c label) :
    LeadsTo ranges call.startIndex newEnd even odd c label := by
  obtain ⟨-, hstart, -, -, hend, hnext, -, -, hlt, habove, -⟩ := h
  have hborder : border ≤ edge ranges (newEnd + 1) := by
    rcases hnext with rfl | ⟨-, h⟩
    · rcases habove with h | h <;> omega
    · exact le_of_eq h
  rcases hleads with hbelow | ⟨i, hi, rfl⟩
  · exact .inl hbelow
  right
  refine ⟨i, ⟨hi.start_le, ?_, hi.edge_le, fun h => hi.lt_edge (by omega)⟩, rfl⟩
  by_contra hgt
  have hle := hi.edge_le
  have := hready.edge_le (i := newEnd + 1) (by omega) (by omega) hi.le_end
  omega

/-- The call above the border is ready. -/
theorem Ready.high
    (hmany : 6 < call.endIndex - call.startIndex)
    (hpages : call.maxChar / kTableSize ≠ call.minChar / kTableSize)
    (hborder : border ≠ edge ranges call.endIndex - 1 + 1)
    (hlength : ranges'.length = ranges.length)
    (houtside : ∀ i, i < call.startIndex ∨ newEnd < i → edge ranges' i = edge ranges i)
    (hinside : ∀ i, call.startIndex ≤ i → i ≤ newEnd → edge ranges' i ≤ border - 1) :
    Ready ranges' (call.high newStart border) := by
  obtain ⟨-, hstart, hle, -, hend, hnext, hmin, -, -, habove, -⟩ := h
  have habove := habove.resolve_right fun h => hborder h.2.2.2
  have heq : ∀ i, newEnd < i → edge ranges' i = edge ranges i := fun i hi => houtside i (.inr hi)
  exact {
    start_le := hle
    end_lt := by rw [hlength]; exact hready.end_lt
    sorted := fun k hk hk' => by
      change newStart ≤ k at hk
      rw [heq k (by omega), heq (k + 1) (by omega)]
      exact hready.sorted k (by omega) hk'
    min_lt := by
      change border < edge ranges' newStart
      rwa [heq newStart (by omega)]
    le_max := by
      change edge ranges' call.endIndex ≤ call.maxChar
      rw [heq _ hend]
      exact hready.le_max
    max_lt := hready.max_lt
    page_end := .inl (hready.page_end.resolve_right hpages)
    before := fun _ i hi => by
      change i < newStart at hi
      change edge ranges' i ≤ border
      rcases lt_or_ge i call.startIndex with hbefore | hge
      · rw [houtside i (.inl hbefore)]
        have := hready.before hmany i hbefore
        omega
      rcases lt_or_ge newEnd i with hgt | hle
      · rw [heq i hgt]
        rcases hnext with h | ⟨h, hon⟩
        · omega
        · rw [show i = newEnd + 1 by omega]
          exact le_of_eq hon.symm
      · have := hinside i hge hle
        omega }

/-- From the border on the labels change places where the parity of the start does. -/
theorem LeadsTo.high
    (houtside : ∀ i, newEnd < i → edge ranges' i = edge ranges i) (hc : border ≤ c)
    (hleads : LeadsTo ranges call.startIndex call.endIndex even odd c label) :
    LeadsTo ranges' newStart call.endIndex
      (if newStart % 2 ≠ call.startIndex % 2 then odd else even)
      (if newStart % 2 ≠ call.startIndex % 2 then even else odd) c label := by
  obtain ⟨-, hstart, hle, hlt, hend, hnext, -, -, hbelow, habove, hprev⟩ := h
  rcases hleads with ⟨hlt', -⟩ | ⟨i, hi, rfl⟩
  · have := hready.edge_le le_rfl hstart (le_of_lt hend)
    omega
  have hi1 := hi.start_le
  have hi2 := hi.le_end
  rcases lt_or_ge i newStart with hbefore | hge
  · -- The character is above the last boundary before the border.
    have hi' : i + 1 = newStart := by
      by_contra hne
      have hlt'' := hi.lt_edge (by omega)
      have := hready.edge_le (i := i + 1) (j := newStart - 1) (by omega) (by omega) (by omega)
      omega
    left
    refine ⟨?_, ?_⟩
    · rw [houtside newStart (by omega), ← hi']
      exact hi.lt_edge (by omega)
    · unfold side
      split_ifs <;> first | rfl | omega
  · right
    refine ⟨i, ⟨hge, hi2, ?_, fun h => ?_⟩, ?_⟩
    · rw [houtside i (by omega)]
      exact hi.edge_le
    · rw [houtside (i + 1) (by omega)]
      exact hi.lt_edge h
    · split_ifs
      · exact side_swap (by omega)
      · exact side_congr (by omega)

end Split

/-- A character leads to one of the two labels, which are not new. -/
theorem LeadsTo.label_lt {startIndex endIndex next : ℕ} (heven : even < next) (hodd : odd < next)
    (hleads : LeadsTo ranges startIndex endIndex even odd c label) : label < next := by
  rcases hleads with ⟨-, rfl⟩ | ⟨i, -, rfl⟩
  · exact hodd
  · rcases side_cases even odd startIndex i with h | h <;> omega

/-- Where characters above the last boundary lead. -/
theorem LeadsTo.eq_last (hready : Ready ranges call)
    (hc : edge ranges call.endIndex ≤ c)
    (hleads : LeadsTo ranges call.startIndex call.endIndex even odd c label) :
    label = if call.endIndex % 2 ≠ call.startIndex % 2 then odd else even := by
  have hle := hready.start_le
  rw [hleads.eq_side hready ⟨hle, le_rfl, hc, fun h => absurd h (lt_irrefl _)⟩]
  unfold side
  split_ifs <;> first | rfl | omega

end Calls

/-! ## What a call emits -/

/-- **The frame of a call**: only its part of the array changes, and stays below its limit. -/
structure Frame (ranges : List ℕ) (call : Call) (ranges' : List ℕ) : Prop where
  length_eq : ranges'.length = ranges.length
  outside : ∀ i, i < call.startIndex ∨ call.endIndex < i → edge ranges' i = edge ranges i
  inside : ∀ i, call.startIndex ≤ i → i ≤ call.endIndex → edge ranges' i ≤ call.maxChar

variable {ranges : List ℕ}

/-- Boundaries that are not changed satisfy the frame. -/
theorem Ready.frame {call : Call} (hready : Ready ranges call) :
    Frame ranges call ranges where
  length_eq := rfl
  outside _ _ := rfl
  inside _ hi hi' := (Nat.le_add_right _ _).trans
    ((hready.edge_le hi hi' le_rfl).trans hready.le_max)

theorem Frame.trans {ranges ranges₁ ranges₂ : List ℕ} {call inner : Call}
    (h : Frame ranges call ranges₁) (hinner : Frame ranges₁ inner ranges₂)
    (hstart : call.startIndex ≤ inner.startIndex) (hend : inner.endIndex ≤ call.endIndex)
    (hmax : inner.maxChar ≤ call.maxChar) : Frame ranges call ranges₂ where
  length_eq := hinner.length_eq.trans h.length_eq
  outside i hi := (hinner.outside i (by omega)).trans (h.outside i hi)
  inside i hi hi' := by
    by_cases hin : inner.startIndex ≤ i ∧ i ≤ inner.endIndex
    · exact (hinner.inside i hin.1 hin.2).trans hmax
    · rw [hinner.outside i (by omega)]
      exact h.inside i hi hi'

/-- **What a call leaves behind**: it stays in its frame and binds new labels only, and its code
leads each character of its interval to the label of the segment. -/
structure Emits (ranges : List ℕ) (call : Call) (fallThrough even odd next : ℕ) (e : Emitted) :
    Prop where
  frame : Frame ranges call e.ranges
  next_le : next ≤ e.next
  fresh : ∀ label ∈ binds e.code, next ≤ label
  linked : ∀ label, isLinked e.code label → label = even ∨ label = odd ∨ next ≤ label
  goes : ∀ c label, call.minChar ≤ c → c ≤ call.maxChar →
    LeadsTo ranges call.startIndex call.endIndex even odd c label →
    Goes (CharacterCheck.holds c) e.code fallThrough label
  fewer : ∀ p ∈ e.calls, p.2.boundaries < p.1.boundaries

section Emission

variable {ranges ranges' : List ℕ} {call : Call} {fallThrough even odd next : ℕ}

section

variable (hready : Ready ranges call) {rest : Emitted}
include hready

/-- Code without labels of its own, for a call that makes no other one. -/
theorem Ready.emits_leaf {code : Code} (hbinds : binds code = [])
    (hlinked : ∀ label, isLinked code label → label = even ∨ label = odd)
    (hgoes : ∀ c label, call.minChar ≤ c → c ≤ call.maxChar →
      LeadsTo ranges call.startIndex call.endIndex even odd c label →
      Goes (holds c) code fallThrough label) :
    Emits ranges call fallThrough even odd next ⟨ranges, next, code, []⟩ where
  frame := hready.frame
  next_le := le_rfl
  fresh label h := by
    rw [hbinds] at h
    exact absurd h List.not_mem_nil
  linked label h := (hlinked label h).imp_right .inl
  goes := hgoes
  fewer := by simp

/-- A single boundary is decided by one test. -/
theorem Ready.emits_boundaryTest (heq : call.startIndex = call.endIndex) :
    Emits ranges call fallThrough even odd next
      ⟨ranges, next, emitBoundaryTest (edge ranges call.startIndex) fallThrough even odd, []⟩ := by
  apply hready.emits_leaf (binds_emitBoundaryTest _ _ _ _) fun _ => isLinked_emitBoundaryTest
  intro c label _ _ hleads
  have h := goes_emitBoundaryTest (c := c) (zero_lt_of_lt hready.min_lt) fallThrough even odd
  rcases hleads with ⟨hlt, rfl⟩ | ⟨i, hi, rfl⟩
  · rwa [if_pos hlt] at h
  obtain rfl : i = call.startIndex := by
    have := hi.start_le
    have := hi.le_end
    omega
  have hle := hi.edge_le
  rw [if_neg (by omega)] at h
  rwa [side, if_pos (by omega)]

/-- Two boundaries are decided by one double test. -/
theorem Ready.emits_doubleBoundaryTest (heq : call.startIndex + 1 = call.endIndex) :
    Emits ranges call fallThrough even odd next
      ⟨ranges, next, emitDoubleBoundaryTest (edge ranges call.startIndex)
        (edge ranges call.endIndex - 1) fallThrough even odd, []⟩ := by
  apply hready.emits_leaf (binds_emitDoubleBoundaryTest _ _ _ _ _)
    fun _ => isLinked_emitDoubleBoundaryTest
  intro c label _ _ hleads
  have h := goes_emitDoubleBoundaryTest (c := c) (edge ranges call.startIndex)
    (edge ranges call.endIndex - 1) fallThrough even odd
  have hsorted := hready.sorted call.startIndex le_rfl (by omega)
  rcases hleads with ⟨hlt, rfl⟩ | ⟨i, hi, rfl⟩
  · rwa [if_neg (by omega)] at h
  have hle := hi.edge_le
  rcases eq_or_lt_of_le hi.start_le with rfl | hgt
  · have hlt := hi.lt_edge (by omega)
    rw [heq] at hlt
    rw [if_pos (by omega)] at h
    rwa [side, if_pos (by omega)]
  · obtain rfl : i = call.endIndex := by
      have := hi.le_end
      omega
    rw [if_neg (by rw [heq] at hsorted; omega)] at h
    rwa [side, if_neg (by omega)]

omit hready in
/-- Cutting a pair of boundaries out changes no boundary outside the call. -/
theorem IsCut.frame {cut : ℕ} (hc : IsCut ranges call.startIndex call.endIndex cut ranges')
    (hready : Ready ranges call) (hstart : call.startIndex ≤ cut) (hcut : cut < call.endIndex) :
    Frame ranges call ranges' where
  length_eq := hc.length_eq
  outside i hi := by rw [hc.edge_eq, if_neg (by omega), if_neg (by omega)]
  inside i hi hi' := by
    rw [hc.edge_eq]
    split_ifs <;> exact hready.frame.inside _ (by omega) (by omega)

/-- A cut followed by code for the remaining boundaries decides the whole. -/
theorem Emits.cut {cut : ℕ} {test : Code} (hstart : call.startIndex ≤ cut)
    (hcut : cut < call.endIndex) (htwo : 2 ≤ call.endIndex - call.startIndex)
    (hc : IsCut ranges call.startIndex call.endIndex cut ranges')
    (htest : test = emitDoubleBoundaryTest (edge ranges cut) (edge ranges (cut + 1) - 1) next
      (side even odd call.startIndex cut) next) (hlinked : isLinked test next = false)
    (heven : even < next) (hodd : odd < next)
    (hrest : Emits ranges' call.inner fallThrough even odd (next + 1) rest) :
    Emits ranges call fallThrough even odd next
      { rest with code := test ++ rest.code, calls := (call, call.inner) :: rest.calls } where
  frame := (hc.frame hready hstart hcut).trans hrest.frame (le_succ _) (sub_le _ _) le_rfl
  next_le := le_of_succ_le hrest.next_le
  fresh label h := by
    rw [binds_append, htest, binds_emitDoubleBoundaryTest] at h
    exact le_of_succ_le (hrest.fresh label h)
  linked label h := by
    rcases isLinked_append.mp h with h | h
    · rw [htest] at h
      rcases isLinked_emitDoubleBoundaryTest h with rfl | rfl
      · exact (side_cases ..).imp_right .inl
      · exact .inr (.inr le_rfl)
    · rcases hrest.linked label h with h | h | h
      · exact .inl h
      · exact .inr (.inl h)
      · exact .inr (.inr (le_of_succ_le h))
  goes c label hmin hmax hleads := by
    have hsorted := hready.sorted cut hstart hcut
    have hgoes := goes_emitDoubleBoundaryTest (c := c) (edge ranges cut) (edge ranges (cut + 1) - 1)
      next (side even odd call.startIndex cut) next
    rw [← htest] at hgoes
    -- In the cut the test jumps; outside of it the rest has the same label.
    by_cases hin : edge ranges cut ≤ c ∧ c ≤ edge ranges (cut + 1) - 1
    · rw [if_pos hin] at hgoes
      obtain rfl := hleads.eq_side hready ⟨hstart, le_of_lt hcut, hin.1, fun _ => by omega⟩
      have hside : side even odd call.startIndex cut < next := by
        rcases side_cases even odd call.startIndex cut with h | h <;> omega
      left
      rw [exec_append, hgoes.exec_eq (Nat.ne_of_lt hside)]
      exact exec_of_notMem fun h => Nat.not_le_of_lt (lt_succ_of_lt hside) (hrest.fresh _ h)
    · rw [if_neg hin] at hgoes
      have hrest' := hrest.goes c label hmin hmax (hc.leadsTo hready hstart hcut htwo hin hleads)
      unfold Goes
      rw [exec_append, hgoes.exec_eq_none hlinked]
      exact hrest'
  fewer := List.forall_mem_cons.mpr ⟨boundaries_inner_lt (by omega), hrest.fewer⟩

/-- A call after the test for the characters below the first boundary. -/
theorem Emits.below (hlt : call.startIndex < call.endIndex) (hodd : odd < next)
    (hrest : Emits ranges
      (call.tail (edge ranges call.startIndex)) fallThrough odd even next rest) :
    Emits ranges call fallThrough even odd next
      { rest with
        code := .branch (.lt (edge ranges call.startIndex)) odd :: rest.code
        calls := (call, call.tail (edge ranges call.startIndex)) :: rest.calls } where
  frame := hready.frame.trans hrest.frame (le_succ _) le_rfl le_rfl
  next_le := hrest.next_le
  fresh label h := hrest.fresh label h
  linked label h := by
    rcases isLinked_cons.mp h with h | h
    · exact .inr (.inl (Option.some.inj h).symm)
    · have := hrest.linked label h
      tauto
  goes c label hmin hmax hleads := by
    unfold Goes
    rw [exec_branch, holds]
    by_cases hc : c < edge ranges call.startIndex
    · rw [if_pos (decide_eq_true hc),
        exec_of_notMem fun h => Nat.not_le_of_lt hodd (hrest.fresh _ h)]
      rcases hleads with ⟨-, rfl⟩ | ⟨i, hi, -⟩
      · exact .inl rfl
      · have hle := hi.edge_le
        have := hready.edge_le le_rfl hi.start_le hi.le_end
        omega
    · rw [if_neg (by simpa using hc)]
      exact hrest.goes c label (Nat.le_of_not_lt hc) hmax (hleads.tail hlt (Nat.le_of_not_lt hc))
  fewer := List.forall_mem_cons.mpr ⟨boundaries_tail_lt hlt _, hrest.fewer⟩

end

section Split

variable {newStart newEnd border : ℕ} (hready : Ready ranges call)
  (h : SplitAsserts ranges call (edge ranges call.endIndex - 1) newStart newEnd border)

include hready h

/-- What the call below the border may change, the whole call may. -/
theorem frame_low {ranges' : List ℕ} (hbelow : Frame ranges (call.low newEnd border) ranges') :
    Frame ranges call ranges' := by
  obtain ⟨-, -, -, -, hend, -, -, hmax, -⟩ := h
  exact hready.frame.trans hbelow le_rfl hend.le ((sub_le _ _).trans hmax.le)

/-- A split where a label is above the border: only the characters below it are left. -/
theorem Emits.split_low (hborder : border = edge ranges call.endIndex) (heven : even < next)
    (hodd : odd < next) {below : Emitted}
    (hbelow : Emits ranges (call.low newEnd border) (next + 1) even odd (next + 2) below) :
    Emits ranges call fallThrough even odd next
      { below with
        code := .branch (.gt (border - 1))
          (if call.endIndex % 2 ≠ call.startIndex % 2 then odd else even) :: below.code
        calls := (call, call.low newEnd border) :: below.calls } where
  frame := frame_low hready h hbelow.frame
  next_le := le_trans (le_add_right _ _) hbelow.next_le
  fresh label hl := le_trans (le_add_right _ _) (hbelow.fresh label hl)
  linked label hl := by
    rcases isLinked_cons.mp hl with hl | hl
    · rw [← Option.some.inj hl]
      split <;> simp
    · exact (hbelow.linked label hl).imp_right (Or.imp_right (by omega))
  goes c label hmin hmax hleads := by
    obtain ⟨-, -, -, -, -, -, hpos, -⟩ := id h
    left
    rw [exec_branch, holds]
    by_cases hc : c < border
    · have hlabel : label < next := hleads.label_lt heven hodd
      rw [if_neg (by simp only [decide_eq_true_eq]; omega)]
      have hlow := hleads.low hready h hc
      exact (hbelow.goes c label hmin (le_sub_one_of_lt hc) hlow).exec_eq
        (Nat.ne_of_lt (lt_succ_of_lt hlabel))
    · rw [if_pos (by simp only [decide_eq_true_eq]; omega), ← hleads.eq_last hready (by omega)]
      have hlabel : label < next := hleads.label_lt heven hodd
      exact exec_of_notMem fun hmem => absurd (hbelow.fresh _ hmem) (by omega)
  fewer := List.forall_mem_cons.mpr ⟨boundaries_low_lt h, hbelow.fewer⟩

/-- A split into the characters below the border and those from it on. -/
theorem Emits.split (heven : even < next) (hodd : odd < next) {below rest : Emitted}
    (hbelow : Emits ranges (call.low newEnd border) (next + 1) even odd (next + 2) below)
    (hrest : Emits below.ranges (call.high newStart border) (next + 1)
      (if newStart % 2 ≠ call.startIndex % 2 then odd else even)
      (if newStart % 2 ≠ call.startIndex % 2 then even else odd) below.next rest) :
    Emits ranges call fallThrough even odd next
      { rest with
        code := (.branch (.gt (border - 1)) next :: below.code) ++ .bind next :: rest.code
        calls := ((call, call.low newEnd border) :: below.calls) ++
          (call, call.high newStart border) :: rest.calls } where
  frame := by
    obtain ⟨-, -, -, hlt, -⟩ := id h
    exact (frame_low hready h hbelow.frame).trans hrest.frame hlt.le le_rfl le_rfl
  next_le := by
    have := hbelow.next_le
    have := hrest.next_le
    dsimp only
    omega
  fresh label hl := by
    have hnext := hbelow.next_le
    rw [binds_append, binds_bind, List.mem_append, List.mem_cons] at hl
    rcases hl with hl | rfl | hl
    · exact le_trans (le_add_right _ _) (hbelow.fresh label hl)
    · exact le_rfl
    · have := hrest.fresh label hl
      omega
  linked label hl := by
    have hnext := hbelow.next_le
    rw [isLinked_append, isLinked_cons, isLinked_cons] at hl
    rcases hl with (hl | hl) | hl | hl
    · exact .inr (.inr (Nat.le_of_eq (Option.some.inj hl)))
    · exact (hbelow.linked label hl).imp_right (Or.imp_right (by omega))
    · exact absurd hl (by simp [Instr.target])
    · have := hrest.linked label hl
      split at this <;> omega
  goes c label hmin hmax hleads := by
    obtain ⟨-, -, -, -, -, -, hpos, -⟩ := id h
    have hnext := hbelow.next_le
    have hlabel : label < next := hleads.label_lt heven hodd
    left
    rw [exec_append, exec_branch, holds]
    by_cases hc : c < border
    · -- A jump from below the border passes over the rest.
      have hlow := hleads.low hready h hc
      rw [if_neg (by simp only [decide_eq_true_eq]; omega),
        (hbelow.goes c label hmin (le_sub_one_of_lt hc) hlow).exec_eq
          (Nat.ne_of_lt (lt_succ_of_lt hlabel)),
        exec_pending_bind, if_neg (Nat.ne_of_lt hlabel)]
      exact exec_of_notMem fun hmem => absurd (hrest.fresh _ hmem) (by omega)
    · rw [if_pos (by simp only [decide_eq_true_eq]; omega),
        exec_of_notMem fun hmem => absurd (hbelow.fresh _ hmem) (by omega),
        exec_pending_bind, if_pos rfl]
      have hhigh := hleads.high hready h (fun i hi => hbelow.frame.outside i (.inr hi))
        (Nat.le_of_not_lt hc)
      exact (hrest.goes c label (Nat.le_of_not_lt hc) hmax hhigh).exec_eq
        (Nat.ne_of_lt (lt_succ_of_lt hlabel))
  fewer := List.forall_mem_append.mpr
    ⟨List.forall_mem_cons.mpr ⟨boundaries_low_lt h, hbelow.fewer⟩,
      List.forall_mem_cons.mpr ⟨boundaries_high_lt h, hrest.fewer⟩⟩

end Split

end Emission

/-- **`GenerateBranches` is correct**: from a call that is ready no `ASSERT` fails, and the code
leads each character to its label. The induction is on the number of boundaries. -/
theorem generateBranches_emits {call : Call} (fallThrough even odd next : ℕ)
    (hready : Ready ranges call) (heven : even < next) (hodd : odd < next) :
    ∃ e, generateBranches ranges call fallThrough even odd next = some e ∧
      Emits ranges call fallThrough even odd next e := by
  induction hn : call.boundaries using Nat.strong_induction_on
    generalizing ranges call fallThrough even odd next with
  | _ n ih =>
    subst hn
    have hle := hready.start_le
    rw [generateBranches]
    dsimp only
    rw [if_neg (not_not.mpr hready.min_lt), hready.last_eq]
    by_cases hone : call.startIndex = call.endIndex
    · rw [if_pos hone]
      exact ⟨_, rfl, hready.emits_boundaryTest hone⟩
    rw [if_neg hone]
    by_cases htwo : call.startIndex + 1 = call.endIndex
    · rw [if_pos htwo]
      exact ⟨_, rfl, hready.emits_doubleBoundaryTest htwo⟩
    rw [if_neg htwo]
    by_cases hfew : call.endIndex - call.startIndex ≤ 6
    · rw [if_pos hfew]
      generalize hcut : (findCut ranges (call.endIndex - call.startIndex) call.startIndex).getD
        call.startIndex = cut
      obtain ⟨hstart, hend⟩ : call.startIndex ≤ cut ∧ cut < call.endIndex := by
        cases hfind : findCut ranges (call.endIndex - call.startIndex) call.startIndex with
        | none =>
          rw [hfind, Option.getD_none] at hcut
          omega
        | some i =>
          rw [hfind, Option.getD_some] at hcut
          have := findCut_bounds hfind
          omega
      obtain ⟨ranges', heq, hlinked, hc⟩ := cutOutRange_spec hstart hend hready.end_lt
        (Nat.ne_of_lt heven) (Nat.ne_of_lt hodd)
      rw [heq]
      dsimp only
      rw [if_pos (by omega)]
      obtain ⟨rest, heq', hrest⟩ := ih _ (boundaries_inner_lt (by omega)) fallThrough even odd
        (next + 1) (hc.ready hready hstart hend (by omega) hfew) (lt_succ_of_lt heven)
        (lt_succ_of_lt hodd) rfl
      rw [Call.inner] at heq'
      rw [heq']
      exact ⟨_, rfl, Emits.cut hready hstart hend (by omega) hc rfl hlinked heven hodd hrest⟩
    rw [if_neg hfew]
    by_cases hpage : call.maxChar / kTableSize = call.minChar / kTableSize
    · rw [if_pos hpage]
      obtain ⟨code, heq, hbinds, hlinked, hgoes⟩ :=
        emitUseLookupTable_spec hready (by omega) hpage fallThrough even odd
      rw [heq]
      exact ⟨_, rfl, hready.emits_leaf hbinds hlinked hgoes⟩
    rw [if_neg hpage]
    by_cases hfirst : call.minChar / kTableSize ≠ edge ranges call.startIndex / kTableSize
    · rw [if_pos hfirst]
      obtain ⟨rest, heq, hrest⟩ := ih _ (boundaries_tail_lt (by omega) _) fallThrough odd even
        next (hready.tail (by omega) (by omega) hpage) hodd heven rfl
      rw [Call.tail] at heq
      rw [heq]
      exact ⟨_, rfl, Emits.below hready (by omega) hodd hrest⟩
    rw [if_neg hfirst]
    obtain ⟨newStart, newEnd, border, heq, hsplit, hborder⟩ :=
      splitSearchSpace_spec hready (by omega) hpage (not_not.mp hfirst)
    rw [heq]
    dsimp only
    rw [if_pos hsplit]
    obtain ⟨below, heq', hbelow⟩ := ih _ (boundaries_low_lt hsplit) (next + 1) even odd
      (next + 2) (hready.low hsplit hborder) (by omega) (by omega) rfl
    rw [Call.low] at heq'
    rw [heq']
    dsimp only
    have hpos : 0 < edge ranges call.endIndex := by
      have := hready.edge_le le_rfl hle le_rfl
      omega
    by_cases hlast : border = edge ranges call.endIndex - 1 + 1
    · -- Nothing jumps to the label for the rest.
      have hlinked : ¬isLinked (.branch (.gt (border - 1))
          (if call.endIndex % 2 ≠ call.startIndex % 2 then odd else even) :: below.code) next := by
        intro h
        rcases isLinked_cons.mp h with h | h
        · have heq := Option.some.inj h
          split at heq <;> omega
        · have := hbelow.linked next h
          omega
      rw [if_pos hlast, if_neg hlinked]
      exact ⟨_, rfl, Emits.split_low hready hsplit (by omega) heven hodd hbelow⟩
    · rw [if_neg hlast, if_pos (isLinked_cons.mpr (.inl rfl))]
      have hnext := hbelow.next_le
      obtain ⟨rest, heq'', hrest⟩ := ih _ (boundaries_high_lt hsplit) (next + 1)
        (if newStart % 2 ≠ call.startIndex % 2 then odd else even)
        (if newStart % 2 ≠ call.startIndex % 2 then even else odd) below.next
        (hready.high hsplit (by omega) hpage hlast hbelow.frame.length_eq hbelow.frame.outside
          hbelow.frame.inside)
        (by split <;> omega) (by split <;> omega) rfl
      simp only [decide_eq_true_eq]
      rw [Call.high] at heq''
      rw [heq'']
      exact ⟨_, rfl, Emits.split hready hsplit heven hodd hbelow hrest⟩

end DartVm.RegExp
