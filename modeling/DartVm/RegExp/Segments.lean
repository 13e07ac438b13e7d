import DartVm.RegExp.CharClass

/-! # Segments between boundaries

What each part of the code generator does, in terms of the segment of the boundary array that a
character is in: the tests and the lookup table lead to the label of that segment, and `CutOutRange`
and `SplitSearchSpace` leave calls for which it has the same label.

* `LeadsTo`, `Ready`: where a character is to go, and the precondition of a call.
* `emitUseLookupTable_spec`: the table leads there.
* `cutOutRange_spec`: a segment is tested and taken out. -/

namespace DartVm.RegExp

open ForwardCode List Option.some CharacterCheck

/-! ## The array -/

/-- Reading a boundary after writing one. -/
theorem edge_set (ranges : List ℕ) (i k x : ℕ) (hi : i < ranges.length) :
    edge (ranges.set i x) k = if k = i then x else edge ranges k := by
  simp only [edge, getD_eq_getElem?_getD]
  split
  next h => rw [h, getElem?_set_self hi, Option.getD_some]
  next h => rw [getElem?_set_ne (symm h)]

/-- **Segment of a character**: it is at or above boundary `i`, and below the next one. -/
structure InSegment (ranges : List ℕ) (startIndex endIndex c i : ℕ) : Prop where
  start_le : startIndex ≤ i
  le_end : i ≤ endIndex
  edge_le : edge ranges i ≤ c
  lt_edge : i < endIndex → c < edge ranges (i + 1)

/-- The label of a segment. -/
def side (even odd : ℕ) (startIndex i : ℕ) : ℕ :=
  if (i - startIndex) % 2 = 0 then even else odd

variable {even odd start start' i i' : ℕ}

/-- The side depends on the parity. -/
theorem side_congr
    (h : (i - start) % 2 = (i' - start') % 2) :
    side even odd start i = side even odd start' i' := by
  rw [side, side, h]

/-- With the other parity the sides change places. -/
theorem side_swap
    (h : (i - start) % 2 ≠ (i' - start') % 2) :
    side even odd start i = side odd even start' i' := by
  unfold side
  split_ifs <;> first | rfl | omega

/-- There are two sides. -/
theorem side_cases (even odd start i : ℕ) :
    side even odd start i = even ∨ side even odd start i = odd :=
  ite_eq_or_eq ..

/-- **The label that a character is to reach**: `odd` below the first boundary, then `even` and
`odd` in turns. -/
def LeadsTo (ranges : List ℕ) (startIndex endIndex : ℕ) (even odd : ℕ) (c : ℕ) (label : ℕ) :
    Prop :=
  (c < edge ranges startIndex ∧ label = odd) ∨
    ∃ i, InSegment ranges startIndex endIndex c i ∧ label = side even odd startIndex i

/-- **Precondition** of a call of `GenerateBranches`. -/
structure Ready (ranges : List ℕ) (call : Call) : Prop where
  start_le : call.startIndex ≤ call.endIndex
  end_lt : call.endIndex < ranges.length
  sorted : ∀ i, call.startIndex ≤ i → i < call.endIndex → edge ranges i < edge ranges (i + 1)
  min_lt : call.minChar < edge ranges call.startIndex
  le_max : edge ranges call.endIndex ≤ call.maxChar
  max_lt : call.maxChar < 65536
  page_end : call.maxChar % kTableSize = kTableSize - 1 ∨
    call.maxChar / kTableSize = call.minChar / kTableSize
  before : 6 < call.endIndex - call.startIndex → ∀ i < call.startIndex, edge ranges i ≤ call.minChar

variable {i j : ℕ}

namespace Ready

variable {ranges : List ℕ} {call : Call}

/-- Boundaries increase strictly. -/
theorem edge_add_le (h : Ready ranges call) (hi : call.startIndex ≤ i) (d : ℕ)
    (hd : i + d ≤ call.endIndex) : edge ranges i + d ≤ edge ranges (i + d) := by
  induction d with
  | zero => exact le_rfl
  | succ d ih =>
    have hstep := h.sorted (i + d) (by omega) (by omega)
    rw [← add_assoc i]
    omega

/-- Boundaries increase strictly, between any two indices. -/
theorem edge_le (h : Ready ranges call) (hi : call.startIndex ≤ i) (hij : i ≤ j)
    (hj : j ≤ call.endIndex) : edge ranges i + (j - i) ≤ edge ranges j := by
  have hle := h.edge_add_le hi (j - i) (by omega)
  rwa [show i + (j - i) = j by omega] at hle

/-- The last character before the last boundary has 16 bits. -/
theorem last_eq (h : Ready ranges call) :
    toUint16 ((edge ranges call.endIndex : ℤ) - 1) = edge ranges call.endIndex - 1 := by
  have hmin := h.min_lt
  have hle := h.edge_le (le_rfl) h.start_le (le_rfl)
  have hmax := h.le_max
  have hlt := h.max_lt
  unfold toUint16
  omega

end Ready

/-! ## Tests -/

section Tests

variable {c fallThrough label : ℕ}

/-- A boundary test goes to the side of the character. -/
theorem goes_emitBoundaryTest {border : ℕ} (hborder : 0 < border)
    (fallThrough aboveOrEqual below : ℕ) :
    Goes (holds c) (emitBoundaryTest border fallThrough aboveOrEqual below)
      fallThrough (if c < border then below else aboveOrEqual) := by
  unfold emitBoundaryTest
  split
  · have h : Goes (holds c) _ _ _ := goes_branch_else (.lt border) below aboveOrEqual
      fallThrough
    simpa only [holds, decide_eq_true_eq] using h
  next hbelow =>
  obtain rfl := not_not.mp hbelow
  have h : Goes (holds c) _ _ _ := goes_branch (.gt (border - 1)) aboveOrEqual below
  simp only [holds, decide_eq_true_eq] at h
  by_cases hc : c < border
  · rw [if_pos hc]
    rwa [if_neg (by omega : ¬c > border - 1)] at h
  · rw [if_neg hc]
    rwa [if_pos (by omega : c > border - 1)] at h

/-- A test for one character is a test for a range of one. -/
theorem holds_inRange (first last : ℕ) :
    (if first = last then character first else .inRange first last).holds c ↔
      first ≤ c ∧ c ≤ last := by
  split
  · simp only [holds, decide_eq_true_eq]
    omega
  · simp [holds]

/-- The same for the negated tests. -/
theorem holds_notInRange (first last : ℕ) :
    (if first = last then notCharacter first else .notInRange first last).holds c ↔
      ¬(first ≤ c ∧ c ≤ last) := by
  split
  · simp only [holds, decide_eq_true_eq]
    omega
  · simp only [holds, decide_eq_true_eq]

/-- A double test goes to the inner or the outer label. -/
theorem goes_emitDoubleBoundaryTest (first last : ℕ) (fallThrough inRange outOfRange : ℕ) :
    Goes (holds c)
      (emitDoubleBoundaryTest first last fallThrough inRange outOfRange) fallThrough
      (if first ≤ c ∧ c ≤ last then inRange else outOfRange) := by
  unfold emitDoubleBoundaryTest
  split
  · next hin =>
    rw [← apply_ite (fun check => [Instr.branch check outOfRange]), hin]
    have h : Goes (holds c) _ _ _ := goes_branch
      (if first = last then .notCharacter first else .notInRange first last) outOfRange fallThrough
    simpa only [holds_notInRange, ite_not] using h
  · rw [← apply_ite (fun check => Instr.branch check inRange)]
    have h : Goes (holds c) _ _ _ := goes_branch_else
      (if first = last then .character first else .inRange first last)
        inRange outOfRange fallThrough
    simpa only [holds_inRange] using h

/-- A boundary test binds no label. -/
theorem binds_emitBoundaryTest (border : ℕ) (fallThrough aboveOrEqual below : ℕ) :
    binds (emitBoundaryTest border fallThrough aboveOrEqual below) = [] := by
  unfold emitBoundaryTest
  split
  · split <;> rfl
  · rfl

/-- A double test binds no label. -/
theorem binds_emitDoubleBoundaryTest (first last : ℕ) (fallThrough inRange outOfRange : ℕ) :
    binds (emitDoubleBoundaryTest first last fallThrough inRange outOfRange) = [] := by
  unfold emitDoubleBoundaryTest
  split
  · split <;> rfl
  · split <;> split <;> rfl

/-- The label of an optional jump. -/
theorem eq_of_isLinked_else {other : ℕ}
    (h : isLinked (if other ≠ fallThrough then [.goTo other] else [] : Code) label) :
    label = other := by
  split at h
  · rcases isLinked_cons.mp h with h | h
    · exact (inj h).symm
    · exact absurd h not_isLinked_nil
  · exact absurd h not_isLinked_nil

/-- A boundary test links its two labels only. -/
theorem isLinked_emitBoundaryTest {border aboveOrEqual below : ℕ}
    (h : isLinked (emitBoundaryTest border fallThrough aboveOrEqual below) label) :
    label = aboveOrEqual ∨ label = below := by
  unfold emitBoundaryTest at h
  split at h <;> rcases isLinked_cons.mp h with h | h
  · exact .inr (inj h).symm
  · exact .inl (eq_of_isLinked_else h)
  · exact .inl (inj h).symm
  · exact absurd h not_isLinked_nil

/-- A double test links its two labels only. -/
theorem isLinked_emitDoubleBoundaryTest {first last inRange outOfRange : ℕ}
    (h : isLinked (emitDoubleBoundaryTest first last fallThrough inRange outOfRange) label) :
    label = inRange ∨ label = outOfRange := by
  unfold emitDoubleBoundaryTest at h
  split at h
  · rw [← apply_ite (fun check => [Instr.branch check outOfRange])] at h
    rcases isLinked_cons.mp h with h | h
    · exact .inr (inj h).symm
    · exact absurd h not_isLinked_nil
  · rw [← apply_ite (fun check => Instr.branch check inRange)] at h
    rcases isLinked_cons.mp h with h | h
    · exact .inl (inj h).symm
    · exact .inr (eq_of_isLinked_else h)

end Tests

/-! ## Lookup tables -/

@[simp] theorem length_fill (bit : Bool) (left j : ℕ) (templ : List Bool) :
    (fill bit left j templ).length = templ.length := by
  induction left generalizing j templ with
  | zero => rfl
  | succ left ih => rw [fill, ih, length_set]

/-- The entries of a table after filling a part of it. -/
theorem getD_fill (bit : Bool) (left j k : ℕ) (templ : List Bool) (hk : k < templ.length) :
    (fill bit left j templ).getD k false =
      if j ≤ k ∧ k < j + left then bit else templ.getD k false := by
  induction left generalizing j templ with
  | zero => rw [fill, if_neg (by omega)]
  | succ left ih =>
    rw [fill, ih _ _ (by rwa [length_set])]
    by_cases hjk : j = k
    · subst hjk
      rw [if_neg (by omega), if_pos (by omega), getD_eq_getElem?_getD,
        getElem?_set_self hk, Option.getD_some]
    have hset : (templ.set j bit).getD k false = templ.getD k false := by
      rw [getD_eq_getElem?_getD, getElem?_set_ne hjk, ← getD_eq_getElem?_getD]
    rw [hset]
    by_cases hin : j + 1 ≤ k ∧ k < j + 1 + left
    · rw [if_pos hin, if_pos (by omega)]
    · rw [if_neg hin, if_neg (by omega)]

/-- The offset of a boundary on its page. -/
def offset (ranges : List ℕ) (i : ℕ) : ℕ := edge ranges i % kTableSize

/-- The bit of the table changes with every boundary. -/
theorem xor_not_parity (bit : Bool) (n : ℕ) :
    xor (!bit) (n % 2 = 1) = xor bit ((n + 1) % 2 = 1) := by
  have : (n + 1) % 2 = 1 ↔ ¬n % 2 = 1 := by omega
  rw [decide_eq_decide.mpr this, decide_not, Bool.not_xor, Bool.xor_not]

/-- **The second loop of `EmitUseLookupTable`** writes the bits of its segments in turns, and leaves
the rest. -/
theorem fillSegments_spec (ranges : List ℕ) (left i : ℕ) (templ : List Bool) (bit : Bool) (j : ℕ)
    (hlength : templ.length = kTableSize) (hleft : 0 < left)
    (hsorted : ∀ k, i ≤ k → k < i + left → offset ranges k < offset ranges (k + 1)) :
    ∃ templ', fillSegments ranges left i (templ, bit, j) =
        (templ', xor bit (left % 2 = 1), offset ranges (i + left)) ∧
      templ'.length = kTableSize ∧
      (∀ k < kTableSize, k < offset ranges i → templ'.getD k false = templ.getD k false) ∧
      ∀ k < kTableSize, ∀ i', i ≤ i' → i' < i + left → offset ranges i' ≤ k →
        k < offset ranges (i' + 1) → templ'.getD k false = xor bit ((i' - i) % 2 = 1) := by
  induction left generalizing i templ bit j with
  | zero => omega
  | succ left ih =>
    have hfirst := hsorted i (le_rfl) (by omega)
    have hfill : ∀ k < kTableSize,
        (fill bit (offset ranges (i + 1) - offset ranges i) (offset ranges i) templ).getD k false =
          if offset ranges i ≤ k ∧ k < offset ranges (i + 1) then bit else templ.getD k false := by
      intro k hk
      rw [getD_fill _ _ _ _ _ (by omega), Nat.add_sub_cancel' (Nat.le_of_lt hfirst)]
    have hstep : fillSegments ranges (left + 1) i (templ, bit, j) =
        fillSegments ranges left (i + 1)
          (fill bit (offset ranges (i + 1) - offset ranges i) (offset ranges i) templ, !bit,
            offset ranges (i + 1)) :=
      congrArg (fun m => fillSegments ranges left (i + 1) (_, _, m))
        (max_eq_right (le_of_lt hfirst))
    rw [hstep]
    -- The first segment is written here, and the others by the rest of the loop.
    rcases Nat.eq_zero_or_pos left with rfl | hpos
    · refine ⟨fill bit (offset ranges (i + 1) - offset ranges i) (offset ranges i) templ,
        by cases bit <;> rfl, by rw [length_fill, hlength], fun k hk hlt => ?_, ?_⟩
      · rw [hfill k hk, if_neg (by omega)]
      · intro k hk i' hi hi' hle hlt
        obtain rfl : i' = i := by omega
        rw [hfill k hk, if_pos ⟨hle, hlt⟩]
        simp
    · obtain ⟨templ', heq, hlength', hlow, hbits⟩ := ih (i + 1)
        (fill bit (offset ranges (i + 1) - offset ranges i) (offset ranges i) templ) (!bit)
        (offset ranges (i + 1)) (by rw [length_fill, hlength]) hpos
        (fun k hk hk' => hsorted k (by omega) (by omega))
      refine ⟨templ', ?_, hlength', fun k hk hlt => ?_, fun k hk i' hi hi' hle hlt => ?_⟩
      · rw [heq, show i + 1 + left = i + (left + 1) by omega, xor_not_parity]
      · rw [hlow k hk (by omega), hfill k hk, if_neg (by omega)]
      rcases eq_or_lt_of_le hi with rfl | hlt'
      · rw [hlow k hk hlt, hfill k hk, if_pos ⟨hle, hlt⟩]
        simp
      · rw [hbits k hk i' (by omega) (by omega) hle hlt, xor_not_parity,
          show i' - (i + 1) + 1 = i' - i by omega]

variable {ranges : List ℕ} {k : ℕ}

/-- The lookup table has `bit` below the first boundary, then its negation and `bit` in turns. -/
theorem lookupTable_spec {startIndex endIndex : ℕ} (hlt : startIndex < endIndex)
    (hsorted : ∀ k, startIndex ≤ k → k < endIndex → offset ranges k < offset ranges (k + 1))
    (bit : Bool) (hk : k < kTableSize) :
    (k < offset ranges startIndex →
      (lookupTable ranges startIndex endIndex bit).getD k false = bit) ∧
    ∀ i, startIndex ≤ i → i ≤ endIndex → offset ranges i ≤ k →
      (i < endIndex → k < offset ranges (i + 1)) →
      (lookupTable ranges startIndex endIndex bit).getD k false =
        xor (!bit) ((i - startIndex) % 2 = 1) := by
  have hmono : ∀ i j, startIndex ≤ i → i ≤ j → j ≤ endIndex →
      offset ranges i ≤ offset ranges j := by
    intro i j hi hij hj
    induction j, hij using Nat.le_induction with
    | base => exact le_rfl
    | succ j hij ih => exact (ih (by omega)).trans (le_of_lt (hsorted j (by omega) (by omega)))
  obtain ⟨templ, heq, hlength, hlow, hbits⟩ := fillSegments_spec ranges
    (endIndex - startIndex) startIndex
    (fill bit (min (edge ranges startIndex % kTableSize) kTableSize) 0
      (replicate kTableSize false)) (!bit) 0 (by rw [length_fill, length_replicate])
    (by omega) (fun k hk hk' => hsorted k hk (by omega))
  rw [Nat.add_sub_cancel' (Nat.le_of_lt hlt)] at heq
  have htable : (lookupTable ranges startIndex endIndex bit).getD k false =
      if offset ranges endIndex ≤ k then xor (!bit) ((endIndex - startIndex) % 2 = 1)
      else templ.getD k false := by
    rw [lookupTable]
    simp only [heq]
    rw [getD_fill _ _ _ _ _ (by omega)]
    split
    next h => rw [if_pos h.1]
    next h => rw [if_neg (by omega)]
  rw [htable]
  refine ⟨fun hk' => ?_, fun i hi hi' hle hlt' => ?_⟩
  · have := hmono startIndex endIndex (le_rfl) (le_of_lt hlt) (le_rfl)
    rw [if_neg (by omega), hlow k hk hk', getD_fill _ _ _ _ _ (by rwa [length_replicate]),
      if_pos ⟨Nat.zero_le _, by rw [Nat.zero_add]; exact lt_min hk' hk⟩]
  rcases eq_or_lt_of_le hi' with rfl | hend
  · rw [if_pos hle]
  · have hk' := hlt' hend
    have := hmono (i + 1) endIndex (by omega) hend (le_rfl)
    rw [if_neg (by omega)]
    exact hbits k hk i hi (by omega) hle hk'

/-- A boundary on the page of the table, by its offset. -/
theorem edge_eq_of_page {base : ℕ} (h : page (edge ranges i) = base) :
    edge ranges i = base + offset ranges i := by
  unfold page at h
  unfold offset
  have := Nat.div_add_mod' (edge ranges i) kTableSize
  omega

/-- **`EmitUseLookupTable`** leads to the label of the segment, where the call is about one page. -/
theorem emitUseLookupTable_spec {call : Call} (hready : Ready ranges call)
    (hmany : 6 < call.endIndex - call.startIndex)
    (hpage : call.maxChar / kTableSize = call.minChar / kTableSize) (fallThrough even odd : ℕ) :
    ∃ code, emitUseLookupTable ranges call.startIndex call.endIndex call.minChar fallThrough even
        odd = some code ∧ binds code = [] ∧
      (∀ label, isLinked code label → label = even ∨ label = odd) ∧
      ∀ c label, call.minChar ≤ c → c ≤ call.maxChar →
        LeadsTo ranges call.startIndex call.endIndex even odd c label →
        Goes (holds c) code fallThrough label := by
  have hbetween : ∀ x, call.minChar ≤ x → x ≤ call.maxChar → page x = page call.minChar := by
    intro x hx hx'
    unfold page
    have h1 := Nat.div_le_div_right (c := kTableSize) hx
    have h2 := Nat.div_le_div_right (c := kTableSize) hx'
    rw [show x / kTableSize = call.minChar / kTableSize by omega]
  have hpages : ∀ i, call.startIndex ≤ i → i ≤ call.endIndex →
      page (edge ranges i) = page call.minChar := by
    intro i hi hi'
    have h1 := hready.edge_le (le_rfl) hi hi'
    have h2 := hready.edge_le hi hi' (le_rfl)
    have h3 := hready.min_lt
    have h4 := hready.le_max
    exact hbetween _ (by omega) (by omega)
  have hsorted : ∀ k, call.startIndex ≤ k → k < call.endIndex →
      offset ranges k < offset ranges (k + 1) := by
    intro k hk hk'
    have h1 := edge_eq_of_page (hpages k hk (by omega))
    have h2 := edge_eq_of_page (hpages (k + 1) (by omega) hk')
    have h3 := hready.sorted k hk hk'
    omega
  have hbefore : call.startIndex = 0 ∨
      page (edge ranges (call.startIndex - 1)) ≤ page call.minChar := by
    rcases Nat.eq_zero_or_pos call.startIndex with h | h
    · exact .inl h
    · have hle := hready.before hmany (call.startIndex - 1) (by omega)
      exact .inr (Nat.mul_le_mul_right _ (Nat.div_le_div_right hle))
  -- What the table says about a character of the page.
  have htable : ∀ (bit : Bool) c label, call.minChar ≤ c → c ≤ call.maxChar →
      LeadsTo ranges call.startIndex call.endIndex even odd c label →
      label = if (lookupTable ranges call.startIndex call.endIndex bit).getD (c % kTableSize) false
        = bit then odd else even := by
    intro bit c label hmin hmax hleads
    have hc : c = page call.minChar + c % kTableSize := by
      have := hbetween c hmin hmax
      rw [← this, page, Nat.div_add_mod']
    obtain ⟨hlow, hseg⟩ := lookupTable_spec (by omega) hsorted bit
      (Nat.mod_lt c (by decide : kTableSize > 0))
    rcases hleads with ⟨hlt, rfl⟩ | ⟨i, hin, rfl⟩
    · have hfirst := edge_eq_of_page (hpages call.startIndex (le_rfl) hready.start_le)
      rw [if_pos (hlow (by omega))]
    have hi := edge_eq_of_page (hpages i hin.start_le hin.le_end)
    have hle := hin.edge_le
    rw [hseg i hin.start_le hin.le_end (by omega) fun hend => by
      have hnext := edge_eq_of_page (hpages (i + 1) (by have := hin.start_le; omega) hend)
      have hlt := hin.lt_edge hend
      omega]
    unfold side
    rcases Nat.mod_two_eq_zero_or_one (i - call.startIndex) with h | h
    · rw [if_pos h, h, if_neg (by simp)]
    · rw [if_neg (by omega), h, if_pos (by simp)]
  rw [emitUseLookupTable]
  rw [if_pos ⟨fun i hi => by
    rw [mem_range'_1] at hi
    exact hpages i hi.1 (by omega), hbefore⟩]
  by_cases heven : even = fallThrough
  · rw [if_pos heven]
    refine ⟨_, rfl, by split <;> rfl, fun label h => ?_, fun c label hmin hmax hleads => ?_⟩
    · rcases isLinked_cons.mp h with h | h
      · exact .inr (inj h).symm
      · exact .inl (eq_of_isLinked_else h)
    rw [htable true c label hmin hmax hleads]
    exact goes_branch_else _ odd even fallThrough
  · rw [if_neg heven]
    refine ⟨_, rfl, by split <;> rfl, fun label h => ?_, fun c label hmin hmax hleads => ?_⟩
    · rcases isLinked_cons.mp h with h | h
      · exact .inl (inj h).symm
      · exact .inr (eq_of_isLinked_else h)
    rw [htable false c label hmin hmax hleads]
    have h : Goes (holds c) _ _ _ := goes_branch_else
      (.bitInTable (lookupTable ranges call.startIndex call.endIndex false)) even odd fallThrough
    rw [holds] at h
    cases hbit :
      (lookupTable ranges call.startIndex call.endIndex false).getD (c % kTableSize) false
    · rwa [hbit] at h
    · rwa [hbit] at h

/-! ## Cutting out a range -/

@[simp] theorem length_shiftUp (left j : ℕ) (ranges : List ℕ) :
    (shiftUp left j ranges).length = ranges.length := by
  induction left generalizing j ranges with
  | zero => rfl
  | succ left ih => rw [shiftUp, ih, length_set]

@[simp] theorem length_shiftDown (left j : ℕ) (ranges : List ℕ) :
    (shiftDown left j ranges).length = ranges.length := by
  induction left generalizing j ranges with
  | zero => rfl
  | succ left ih => rw [shiftDown, ih, length_set]

variable {left : ℕ}

/-- The boundaries after a shift upwards. -/
theorem edge_shiftUp (hle : left ≤ j) (hj : j < ranges.length)
    (k : ℕ) : edge (shiftUp left j ranges) k =
      if j - left < k ∧ k ≤ j then edge ranges (k - 1) else edge ranges k := by
  induction left generalizing j ranges with
  | zero => rw [shiftUp, if_neg (by omega)]
  | succ left ih =>
    rw [shiftUp, ih (by omega) (by rw [length_set]; omega), edge_set _ _ _ _ hj,
      edge_set _ _ _ _ hj]
    split_ifs <;> first | rfl | omega | (subst k; rfl)

/-- The boundaries after a shift downwards. -/
theorem edge_shiftDown (hj : j + left ≤ ranges.length) (k : ℕ) :
    edge (shiftDown left j ranges) k =
      if j ≤ k ∧ k < j + left then edge ranges (k + 1) else edge ranges k := by
  induction left generalizing j ranges with
  | zero => rw [shiftDown, if_neg (by omega)]
  | succ left ih =>
    rw [shiftDown, ih (by rw [length_set]; omega), edge_set _ _ _ _ (by omega),
      edge_set _ _ _ _ (by omega)]
    split_ifs <;> first | rfl | omega | (subst k; rfl)

/-- A cut is found among the boundaries that are searched. -/
theorem findCut_bounds {cut : ℕ} (h : findCut ranges left i = some cut) :
    i ≤ cut ∧ cut < i + left := by
  induction left generalizing i with
  | zero => exact absurd h (by simp [findCut])
  | succ left ih =>
    rw [findCut] at h
    split at h
    · cases h
      omega
    · have := ih h
      omega

/-- **An array after a cut**: the boundaries on either side of the cut move towards it. -/
structure IsCut (ranges : List ℕ) (startIndex endIndex cut : ℕ) (ranges' : List ℕ) : Prop where
  length_eq : ranges'.length = ranges.length
  edge_eq : ∀ k, edge ranges' k =
    if startIndex < k ∧ k ≤ cut then edge ranges (k - 1)
    else if cut < k ∧ k < endIndex then edge ranges (k + 1) else edge ranges k

variable {even odd : ℕ}

/-- **`CutOutRange`** emits a test of one segment and takes it out of the array. -/
theorem cutOutRange_spec {startIndex endIndex cut : ℕ} {dummy : ℕ} (hstart : startIndex ≤ cut)
    (hcut : cut < endIndex) (hend : endIndex < ranges.length) (heven : even ≠ dummy)
    (hodd : odd ≠ dummy) :
    ∃ ranges', cutOutRange ranges startIndex endIndex cut dummy even odd =
        some (ranges', emitDoubleBoundaryTest (edge ranges cut) (edge ranges (cut + 1) - 1) dummy
          (side even odd startIndex cut) dummy) ∧
      isLinked (emitDoubleBoundaryTest (edge ranges cut) (edge ranges (cut + 1) - 1) dummy
        (side even odd startIndex cut) dummy) dummy = false ∧
      IsCut ranges startIndex endIndex cut ranges' := by
  have hside : (if (cut - startIndex) % 2 = 1 then odd else even) =
      side even odd startIndex cut := by
    unfold side
    split_ifs <;> first | rfl | omega
  have hne : side even odd startIndex cut ≠ dummy := by
    rcases side_cases even odd startIndex cut with h | h <;> rwa [h]
  have hlinked : isLinked
    (emitDoubleBoundaryTest (edge ranges cut) (edge ranges (cut + 1) - 1) dummy
      (side even odd startIndex cut) dummy) dummy = false := by
    unfold emitDoubleBoundaryTest isLinked
    rw [if_neg hne]
    split <;> simp [Instr.target, hne]
  rw [cutOutRange, hside]
  rw [hlinked]
  refine ⟨_, rfl, rfl, by simp, fun k => ?_⟩
  rw [edge_shiftDown (by rw [length_shiftUp]; omega), edge_shiftUp (by omega) (by omega),
    edge_shiftUp (by omega) (by omega)]
  split_ifs <;> first | rfl | omega

section Cut

variable {ranges ranges' : List ℕ} {call : Call} {cut : ℕ}

/-- The call that `GenerateBranches` makes after a cut. -/
def Call.inner (call : Call) : Call :=
  { call with startIndex := call.startIndex + 1, endIndex := call.endIndex - 1 }

variable (h : IsCut ranges call.startIndex call.endIndex cut ranges') (hready : Ready ranges call)
  (hstart : call.startIndex ≤ cut) (hcut : cut < call.endIndex)
  (htwo : 2 ≤ call.endIndex - call.startIndex) {label c : ℕ}
include h hready hstart hcut htwo

omit hready hstart hcut htwo in
/-- Below a cut the boundaries have moved up. -/
theorem IsCut.edge_below (hk : call.startIndex < k)
    (hk' : k ≤ cut) : edge ranges' k = edge ranges (k - 1) := by
  rw [h.edge_eq, if_pos ⟨hk, hk'⟩]

omit hready hstart hcut htwo in
/-- Above a cut the boundaries have moved down. -/
theorem IsCut.edge_above (hk : cut < k)
    (hk' : k < call.endIndex) : edge ranges' k = edge ranges (k + 1) := by
  rw [h.edge_eq, if_neg (by omega), if_pos ⟨hk, hk'⟩]

/-- The boundaries without the cut are ready for the inner call. -/
theorem IsCut.ready (hfew : call.endIndex - call.startIndex ≤ 6) :
    Ready ranges' call.inner where
  start_le := by
    change call.startIndex + 1 ≤ call.endIndex - 1
    omega
  end_lt := by
    have := hready.end_lt
    change call.endIndex - 1 < ranges'.length
    rw [h.length_eq]
    omega
  sorted k hk hk' := by
    change call.startIndex + 1 ≤ k at hk
    change k < call.endIndex - 1 at hk'
    -- Boundaries have moved towards the cut from both sides; at the cut they meet.
    rcases lt_trichotomy k cut with hlt | rfl | hgt
    · rw [h.edge_below hk (le_of_lt hlt), h.edge_below (by omega) hlt]
      have := hready.sorted (k - 1) (by omega) (by omega)
      rwa [Nat.sub_add_cancel (by omega)] at this
    · rw [h.edge_below hk (le_rfl), h.edge_above (by omega) (by omega)]
      have := hready.edge_le (i := k - 1) (j := k + 1 + 1) (by omega) (by omega) (by omega)
      omega
    · rw [h.edge_above hgt (by omega), h.edge_above (by omega) (by omega)]
      exact hready.sorted (k + 1) (by omega) (by omega)
  min_lt := by
    have hmin := hready.min_lt
    change call.minChar < edge ranges' (call.startIndex + 1)
    rcases eq_or_lt_of_le hstart with rfl | hlt
    · rw [h.edge_above (by omega) (by omega)]
      have := hready.edge_le (i := call.startIndex) (j := call.startIndex + 1 + 1) (by omega)
      omega
    · rw [h.edge_below (by omega) hlt]
      exact hmin
  le_max := by
    have hmax := hready.le_max
    change edge ranges' (call.endIndex - 1) ≤ call.maxChar
    rcases lt_or_ge cut (call.endIndex - 1) with hlt | hge
    · rwa [h.edge_above hlt (by omega), Nat.sub_add_cancel (by omega)]
    · rw [h.edge_below (by omega) hge]
      have := hready.edge_le (i := call.endIndex - 1 - 1) (j := call.endIndex) (by omega)
      omega
  max_lt := hready.max_lt
  page_end := hready.page_end
  before hmany := by
    change 6 < call.endIndex - 1 - (call.startIndex + 1) at hmany
    omega

omit h hstart hcut htwo in
/-- A character that is between two boundaries leads to the label of that segment. -/
theorem LeadsTo.eq_side
    (hleads : LeadsTo ranges call.startIndex call.endIndex even odd c label)
    (hi : InSegment ranges call.startIndex call.endIndex c i) :
    label = side even odd call.startIndex i := by
  have hle := hi.edge_le
  rcases hleads with ⟨hlt, -⟩ | ⟨j, hj, rfl⟩
  · have := hready.edge_le (le_rfl) hi.start_le hi.le_end
    omega
  have hle' := hj.edge_le
  rcases lt_trichotomy i j with hij | rfl | hij
  · have hlt := hi.lt_edge (by have := hj.le_end; omega)
    have := hready.edge_le (i := i + 1) (by have := hi.start_le; omega) hij hj.le_end
    omega
  · rfl
  · have hlt := hj.lt_edge (by have := hi.le_end; omega)
    have := hready.edge_le (i := j + 1) (by have := hj.start_le; omega) hij hi.le_end
    omega

/-- A character outside the cut goes where it has gone with it. -/
theorem IsCut.leadsTo
    (hc : ¬(edge ranges cut ≤ c ∧ c ≤ edge ranges (cut + 1) - 1))
    (hleads : LeadsTo ranges call.startIndex call.endIndex even odd c label) :
    LeadsTo ranges' call.inner.startIndex call.inner.endIndex even odd c label := by
  change LeadsTo ranges' (call.startIndex + 1) (call.endIndex - 1) even odd c label
  rcases hleads with ⟨hlt, rfl⟩ | ⟨i, hi, rfl⟩
  · left
    refine ⟨?_, rfl⟩
    rcases eq_or_lt_of_le hstart with rfl | hlt'
    · rw [h.edge_above (by omega) (by omega)]
      have := hready.edge_le (i := call.startIndex) (j := call.startIndex + 1 + 1) (by omega)
        (by omega) (by omega)
      omega
    · rwa [h.edge_below (by omega) hlt']
  · have hi1 := hi.start_le
    have hi2 := hi.le_end
    have hle := hi.edge_le
    rcases lt_trichotomy i cut with hlt | rfl | hgt
    · -- Below the cut the segment moves up with its boundary.
      right
      refine ⟨i + 1, ⟨by omega, by omega, ?_, fun hend => ?_⟩, side_congr (by omega)⟩
      · rwa [h.edge_below (by omega) hlt]
      have hnext := hi.lt_edge (by omega)
      rcases lt_or_ge (i + 1) cut with hlt' | hge
      · rwa [h.edge_below (by omega) hlt']
      · rw [h.edge_above (by omega) (by omega)]
        have := hready.edge_le (i := i + 1) (j := i + 1 + 1 + 1) (by omega) (by omega) (by omega)
        omega
    · exact absurd ⟨hle, by have := hi.lt_edge hcut; omega⟩ hc
    · rcases lt_or_ge (cut + 1) i with hfar | hnear
      · right
        refine ⟨i - 1, ⟨by omega, by omega, ?_, fun hend => ?_⟩, side_congr (by omega)⟩
        · rwa [h.edge_above (by omega) (by omega), Nat.sub_add_cancel (by omega)]
        · rw [Nat.sub_add_cancel (by omega), h.edge_above (by omega) (by omega)]
          exact hi.lt_edge (by omega)
      · -- The segment after the cut becomes one with the segment before it.
        obtain rfl : i = cut + 1 := by omega
        rcases eq_or_lt_of_le hstart with rfl | hlt'
        · left
          refine ⟨?_, ?_⟩
          · rw [h.edge_above (by omega) (by omega)]
            exact hi.lt_edge (by omega)
          · unfold side
            rw [if_neg (by omega)]
        · right
          refine ⟨cut, ⟨by omega, by omega, ?_, fun hend => ?_⟩, side_congr (by omega)⟩
          · rw [h.edge_below (by omega) (le_rfl)]
            have := hready.edge_le (i := cut - 1) (j := cut + 1) (by omega) (by omega) (by omega)
            omega
          · rw [h.edge_above (by omega) (by omega)]
            exact hi.lt_edge (by omega)

end Cut

end DartVm.RegExp
