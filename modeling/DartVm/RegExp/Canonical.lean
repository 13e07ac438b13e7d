import DartVm.RegExp.CharacterRange

/-! # Canonical lists of character ranges

`Canonicalize` leaves a canonical list with the same union.  `Negate` leaves a canonical list with
the complement as its union if and only if the list covers the code point `0`: otherwise its first
range starts at `1`.

* `insertAll_spec`: the loop of `Canonicalize`.
* `canonicalize_negate_iff`: what `Canonicalize` and `Negate` return.
* `negate_misses_zero`: a class whose negation lacks a code point. -/

namespace DartVm.RegExp

open List CharacterRange

open Unicode (kMaxCodePoint)

namespace CharacterRange

/-- The code points of a range, both ends included. -/
def Contains (r : CharacterRange) (c : ℤ) : Prop := r.from_ ≤ c ∧ c ≤ r.to_

/-- `r` ends before `s` starts, with a gap between them. -/
def Before (r s : CharacterRange) : Prop := r.to_ + 1 < s.from_

/-- The range has a code point. -/
def IsValid (r : CharacterRange) : Prop := r.from_ ≤ r.to_

end CharacterRange

/-- The union of a list of ranges. -/
def Covers (l : List CharacterRange) (c : ℤ) : Prop := ∃ r ∈ l, r.Contains c

/-- **Canonical list**: valid ranges, sorted, disjoint and not adjacent. -/
structure Canonical (l : List CharacterRange) : Prop where
  valid : ∀ r ∈ l, r.IsValid
  sorted : l.Pairwise Before

/-! ## The array -/

variable {list : List CharacterRange} {i : ℕ} {r : CharacterRange} {from_ to_ : ℕ}

/-- The range at an index of the list. -/
theorem at_eq_of_getElem? (h : list[i]? = some r) : at_ list i = r := by
  rw [at_, getD_eq_getElem?_getD, h, Option.getD_some]

/-- Every index of the list has a range. -/
theorem getElem?_eq_at (h : i < list.length) : list[i]? = some (at_ list i) := by
  rw [at_, getD_eq_getElem?_getD, getElem?_eq_getElem h, Option.getD_some]

/-- Reading after writing. -/
theorem at_set (list : List CharacterRange) (i k : ℕ) (r : CharacterRange) (hi : i < list.length) :
    at_ (list.set i r) k = if k = i then r else at_ list k := by
  simp only [at_, getD_eq_getElem?_getD]
  split
  next h => rw [h, getElem?_set_self hi, Option.getD_some]
  next h => rw [getElem?_set_ne (symm h)]

@[simp] theorem length_moveRangesUp (from_ to_ count : ℕ) (list : List CharacterRange) :
    (moveRangesUp from_ to_ count list).length = list.length := by
  induction count generalizing list with
  | zero => rfl
  | succ count ih => rw [moveRangesUp, ih, length_set]

@[simp] theorem length_moveRangesDown (from_ to_ count : ℕ) (list : List CharacterRange) :
    (moveRangesDown from_ to_ count list).length = list.length := by
  induction count generalizing from_ to_ list with
  | zero => rfl
  | succ count ih => rw [moveRangesDown, ih, length_set]

@[simp] theorem length_moveRanges (list : List CharacterRange) (from_ to_ count : ℕ) :
    (moveRanges list from_ to_ count).length = list.length := by
  rw [moveRanges]
  split <;> simp

/-- Moving upwards, from the last range on, so that none is overwritten before it is read. -/
theorem at_moveRangesUp (hlt : from_ < to_) (count : ℕ)
    (list : List CharacterRange) (hlen : to_ + count ≤ list.length) (k : ℕ) :
    at_ (moveRangesUp from_ to_ count list) k =
      if to_ ≤ k ∧ k < to_ + count then at_ list (from_ + (k - to_)) else at_ list k := by
  induction count generalizing list with
  | zero => rw [moveRangesUp, if_neg (by omega)]
  | succ count ih =>
    have hset := fun k => at_set list (to_ + count) k (at_ list (from_ + count)) (by omega)
    rw [moveRangesUp, ih _ (by rw [length_set]; omega)]
    by_cases hk : to_ ≤ k ∧ k < to_ + count
    · -- What is read in the later rounds lies before what is written in this one.
      rw [if_pos hk, hset, if_neg (by omega), if_pos (by omega)]
    · rw [if_neg hk, hset]
      by_cases heq : k = to_ + count
      · rw [if_pos heq, if_pos (by omega), heq, Nat.add_sub_cancel_left]
      · rw [if_neg heq, if_neg (by omega)]

/-- Moving downwards, from the first range on. -/
theorem at_moveRangesDown (hle : to_ ≤ from_) (count : ℕ)
    (list : List CharacterRange) (hlen : to_ + count ≤ list.length) (k : ℕ) :
    at_ (moveRangesDown from_ to_ count list) k =
      if to_ ≤ k ∧ k < to_ + count then at_ list (from_ + (k - to_)) else at_ list k := by
  induction count generalizing from_ to_ list with
  | zero => rw [moveRangesDown, if_neg (by omega)]
  | succ count ih =>
    have hset := fun k => at_set list to_ k (at_ list from_) (by omega)
    rw [moveRangesDown, ih (by omega) _ (by rw [length_set]; omega)]
    by_cases hk : to_ + 1 ≤ k ∧ k < to_ + 1 + count
    · rw [if_pos hk, hset, if_neg (by omega), if_pos (by omega)]
      congr 1
      omega
    · rw [if_neg hk, hset]
      by_cases heq : k = to_
      · rw [if_pos heq, if_pos (by omega), heq, Nat.sub_self, Nat.add_zero]
      · rw [if_neg heq, if_neg (by omega)]

/-- `MoveRanges` copies a part of the array, also if the source and the target overlap. -/
theorem at_moveRanges (list : List CharacterRange) (from_ to_ count : ℕ)
    (hlen : to_ + count ≤ list.length) (k : ℕ) :
    at_ (moveRanges list from_ to_ count) k =
      if to_ ≤ k ∧ k < to_ + count then at_ list (from_ + (k - to_)) else at_ list k := by
  rw [moveRanges]
  split
  next h => exact at_moveRangesUp h count list hlen k
  next h => exact at_moveRangesDown (Nat.le_of_not_lt h) count list hlen k

/-! ## Where a range is inserted -/

/-- The first `count` ranges of the array are canonical. -/
structure CanonicalUpTo (list : List CharacterRange) (count : ℕ) : Prop where
  valid : ∀ i < count, (at_ list i).IsValid
  sorted : ∀ i j, i < j → j < count → (at_ list i).Before (at_ list j)

/-- The ends of the ranges of a canonical list are ordered. -/
theorem CanonicalUpTo.mono {count j : ℕ} (h : CanonicalUpTo list count) (hij : i ≤ j)
    (hj : j < count) :
    (at_ list i).from_ ≤ (at_ list j).from_ ∧ (at_ list i).to_ ≤ (at_ list j).to_ := by
  rcases eq_or_lt_of_le hij with rfl | hlt
  · exact ⟨le_rfl, le_rfl⟩
  have hbefore := h.sorted i j hlt hj
  have hi := h.valid i (by omega)
  have hj' := h.valid j hj
  unfold Before IsValid at *
  omega

/-- **Insertion positions**: the ranges from `start` to `end` overlap the range or are adjacent to
it; the others lie before or after it. -/
structure Positions (list : List CharacterRange) (insert : CharacterRange) (count start end_ : ℕ) :
    Prop where
  start_le : start ≤ end_
  end_le : end_ ≤ count
  before : ∀ i < start, (at_ list i).Before insert
  touches : ∀ i, start ≤ i → i < end_ →
    (at_ list i).from_ ≤ insert.to_ + 1 ∧ insert.from_ ≤ (at_ list i).to_ + 1
  after : ∀ i, end_ ≤ i → i < count → insert.Before (at_ list i)

variable {count : ℕ} {l : List CharacterRange}

/-- The search for the ranges that an insertion touches. -/
theorem positions_insertPositions (insert : CharacterRange) (h : CanonicalUpTo list count) :
    ∀ i endPos, i ≤ endPos → endPos ≤ count →
      (∀ j, i ≤ j → j < endPos →
        (at_ list j).from_ ≤ insert.to_ + 1 ∧ insert.from_ ≤ (at_ list j).to_ + 1) →
      (∀ j, endPos ≤ j → j < count → insert.Before (at_ list j)) →
      Positions list insert count (insertPositions list insert i endPos).1
        (insertPositions list insert i endPos).2 := by
  intro i
  induction i with
  | zero =>
    intro endPos hle hcount htouches hafter
    exact ⟨hle, hcount, by simp [insertPositions], htouches, hafter⟩
  | succ i ih =>
    intro endPos hle hcount htouches hafter
    rw [insertPositions]
    split
    next hgt =>
      -- This range and all after it lie after the inserted one.
      refine ih i (le_refl i) (by omega) (fun j hj hj' => absurd hj' (by omega)) ?_
      intro j hj hjc
      have hmono := h.mono hj hjc
      unfold Before
      omega
    next hgt =>
      split
      next hlt =>
        refine ⟨hle, hcount, fun j hj => ?_, htouches, hafter⟩
        have hmono := h.mono (Nat.le_of_lt_succ hj) (by omega)
        unfold Before
        omega
      next hlt =>
        refine ih endPos (by omega) hcount (fun j hj hj' => ?_) hafter
        rcases eq_or_lt_of_le hj with rfl | hj
        · exact ⟨by omega, by omega⟩
        · exact htouches j hj hj'

/-! ## The result of an insertion -/

/-- The range that takes the place of those from `start` to `end`. -/
def merged (list : List CharacterRange) (insert : CharacterRange) (start end_ : ℕ) :
    CharacterRange :=
  if start = end_ then insert
  else ⟨min (at_ list start).from_ insert.from_, max (at_ list (end_ - 1)).to_ insert.to_⟩

/-- **Insertion in the array**: the first ranges are those before, the merged one and those after;
what lies behind one more place is not touched. -/
structure Inserted (list : List CharacterRange) (insert : CharacterRange) (count start end_ : ℕ)
    (res : List CharacterRange × ℕ) : Prop where
  count_eq : res.2 = count - (end_ - start) + 1
  length_eq : res.1.length = list.length
  at_eq : ∀ k < res.2, at_ res.1 k =
    if k < start then at_ list k
    else if k = start then merged list insert start end_
    else at_ list (k - 1 + (end_ - start))
  at_of_lt : ∀ k, count < k → at_ res.1 k = at_ list k

section

variable {insert : CharacterRange} {start end_ : ℕ} (hlen : count < list.length)
  (hle : start ≤ end_) (hcount : end_ ≤ count)
include hlen hle hcount

/-- An insertion writes the merged range, after the ranges behind it have been moved. -/
theorem inserted_set {moved : List CharacterRange} {range : CharacterRange} {num : ℕ}
    (hrange : merged list insert start end_ = range) (hnum : num = count - (end_ - start) + 1)
    (hlength : moved.length = list.length) (hmoved : ∀ k, at_ moved k =
      if start < k ∧ k < num then at_ list (k - 1 + (end_ - start)) else at_ list k) :
    Inserted list insert count start end_ (moved.set start range, num) := by
  subst hrange
  refine ⟨hnum, by rw [length_set, hlength], fun k (hk : k < num) => ?_, fun k hk => ?_⟩
  · rw [at_set _ _ _ _ (by omega), hmoved]
    rcases lt_trichotomy k start with hlt | rfl | hgt
    · rw [if_neg (by omega), if_neg (by omega), if_pos hlt]
    · rw [if_pos rfl, if_neg (by omega), if_pos rfl]
    · rw [if_neg (by omega), if_pos (by omega), if_neg (by omega), if_neg (by omega)]
  · rw [at_set _ _ _ _ (by omega), hmoved, if_neg (by omega), if_neg (by omega)]

/-- `InsertRangeInCanonicalList` puts the merged range in place of those that it touches. -/
theorem inserted_insertRangeInCanonicalList
    (heq : insertPositions list insert count count = (start, end_)) :
    Inserted list insert count start end_ (insertRangeInCanonicalList list count insert) := by
  unfold insertRangeInCanonicalList
  rw [heq]
  dsimp only
  split
  next hse =>
    -- The ranges from the position on move up by one.
    refine inserted_set hlen hle hcount (if_pos hse) (by omega) ?_ fun k => ?_
    · split <;> simp
    split
    next hlt =>
      rw [at_moveRanges _ _ _ _ (by omega)]
      refine ite_congr (propext (by omega)) (fun hk => ?_) fun _ => rfl
      congr 1
      omega
    next hge => rw [if_neg (by omega)]
  next hse =>
    split
    next hone =>
      refine inserted_set hlen hle hcount ?_ (by omega) rfl fun k => ?_
      · rw [merged, if_neg hse, ← hone, Nat.add_sub_cancel]
      · split
        next hk => rw [show k - 1 + (end_ - start) = k by omega]
        next => rfl
    next hmany =>
      -- The ranges after the merged ones move down.
      refine inserted_set hlen hle hcount (if_neg hse) rfl ?_ fun k => ?_
      · split <;> simp
      split
      next hlt =>
        rw [at_moveRanges _ _ _ _ (by omega)]
        refine ite_congr (propext (by omega)) (fun hk => ?_) fun _ => rfl
        congr 1
        omega
      next hge => rw [if_neg (by omega)]

end

section Merged

variable {list : List CharacterRange} {insert : CharacterRange} {count start end_ : ℕ}
  (hpos : Positions list insert count start end_)
include hpos

/-- The merged range covers what it takes the place of, and nothing else. -/
theorem Positions.merged_contains (hvalid : CanonicalUpTo list count) (c : ℤ) :
    (merged list insert start end_).Contains c ↔
      insert.Contains c ∨ ∃ i, start ≤ i ∧ i < end_ ∧ (at_ list i).Contains c := by
  unfold merged
  split
  next hse =>
    refine ⟨.inl, fun h => h.elim id fun ⟨i, hi, hi', _⟩ => absurd hi' (by omega)⟩
  next hse =>
    have hle := hpos.start_le
    have hend := hpos.end_le
    obtain ⟨hs1, hs2⟩ := hpos.touches start le_rfl (by omega)
    obtain ⟨he1, he2⟩ := hpos.touches (end_ - 1) (by omega) (by omega)
    constructor
    · rintro ⟨hfrom, hto⟩
      rcases lt_or_ge c insert.from_ with hlt | hge
      · -- Below the inserted range only the first of the others is left.
        exact .inr ⟨start, le_rfl, by omega, by
          unfold Contains; dsimp only at hfrom; omega⟩
      · rcases lt_or_ge insert.to_ c with hgt | hle'
        · exact .inr ⟨end_ - 1, by omega, by omega, by
            unfold Contains; dsimp only at hto; omega⟩
        · exact .inl ⟨hge, hle'⟩
    · rintro (⟨h1, h2⟩ | ⟨i, hi, hi', h1, h2⟩)
      · exact ⟨by dsimp only; omega, by dsimp only; omega⟩
      · have hfirst := (hvalid.mono hi (by omega)).1
        have hlast := (hvalid.mono (show i ≤ end_ - 1 by omega) (by omega)).2
        exact ⟨by dsimp only; omega, by dsimp only; omega⟩

/-- The ranges in front stay in front of the merged one. -/
theorem Positions.before_merged (hvalid : CanonicalUpTo list count) (hi : i < start) :
    (at_ list i).Before (merged list insert start end_) := by
  have hbefore := hpos.before i hi
  unfold merged
  split
  next => exact hbefore
  next hse =>
    have hle := hpos.start_le
    have hend := hpos.end_le
    have hsorted := hvalid.sorted i start hi (by omega)
    unfold Before at *
    dsimp only
    omega

/-- The ranges behind stay behind the merged one. -/
theorem Positions.merged_before (hvalid : CanonicalUpTo list count) (hi : end_ ≤ i)
    (hi' : i < count) : (merged list insert start end_).Before (at_ list i) := by
  have hafter := hpos.after i hi hi'
  unfold merged
  split
  next => exact hafter
  next hse =>
    have hle := hpos.start_le
    have hsorted := hvalid.sorted (end_ - 1) i (by omega) hi'
    unfold Before at *
    dsimp only
    omega

omit hpos in
/-- The merged range is valid. -/
theorem merged_valid (hinsert : insert.IsValid) : (merged list insert start end_).IsValid := by
  unfold merged
  split
  next => exact hinsert
  next =>
    unfold IsValid at *
    dsimp only
    omega

end Merged

section Insert

variable {list : List CharacterRange} {insert : CharacterRange} {count start end_ : ℕ}
  {res : List CharacterRange × ℕ}

/-- An insertion keeps the list canonical. -/
theorem Inserted.canonicalUpTo (h : Inserted list insert count start end_ res)
    (hpos : Positions list insert count start end_) (hcan : CanonicalUpTo list count)
    (hinsert : insert.IsValid) : CanonicalUpTo res.1 res.2 := by
  have hcount := h.count_eq
  have hle := hpos.start_le
  have hend := hpos.end_le
  refine ⟨fun i hi => ?_, fun i j hij hj => ?_⟩
  · rw [h.at_eq i hi]
    split
    · exact hcan.valid i (by omega)
    split
    · exact merged_valid hinsert
    · exact hcan.valid _ (by omega)
  · rw [h.at_eq i (by omega), h.at_eq j hj]
    -- The two ranges are before, at or after the merged one.
    rcases lt_trichotomy i start with hi | hi | hi
    · rw [if_pos hi]
      rcases lt_trichotomy j start with hj' | hj' | hj'
      · rw [if_pos hj']
        exact hcan.sorted i j hij (by omega)
      · rw [if_neg (by omega), if_pos hj']
        exact hpos.before_merged hcan hi
      · rw [if_neg (by omega), if_neg (by omega)]
        exact hcan.sorted i _ (by omega) (by omega)
    · rw [if_neg (by omega), if_pos hi, if_neg (by omega), if_neg (by omega)]
      exact hpos.merged_before hcan (by omega) (by omega)
    · rw [if_neg (by omega), if_neg (by omega), if_neg (by omega), if_neg (by omega)]
      exact hcan.sorted _ _ (by omega) (by omega)

/-- The union of the first `count` ranges of the array. -/
def CoversUpTo (list : List CharacterRange) (count : ℕ) (c : ℤ) : Prop :=
  ∃ i < count, (at_ list i).Contains c

/-- An insertion adds the code points of the new range. -/
theorem Inserted.coversUpTo_iff (h : Inserted list insert count start end_ res)
    (hpos : Positions list insert count start end_) (hcan : CanonicalUpTo list count) (c : ℤ) :
    CoversUpTo res.1 res.2 c ↔ insert.Contains c ∨ CoversUpTo list count c := by
  have hcount := h.count_eq
  have hle := hpos.start_le
  have hend := hpos.end_le
  have hmerged := hpos.merged_contains hcan c
  constructor
  · rintro ⟨i, hi, hc⟩
    rw [h.at_eq i hi] at hc
    split at hc
    · exact .inr ⟨i, by omega, hc⟩
    split at hc
    · rcases hmerged.mp hc with hc | ⟨j, hj, hj', hc⟩
      · exact .inl hc
      · exact .inr ⟨j, by omega, hc⟩
    · exact .inr ⟨_, by omega, hc⟩
  · -- Every range of the old list is one of the new list or a part of the merged range.
    have hstart : (merged list insert start end_).Contains c → CoversUpTo res.1 res.2 c := by
      intro hc
      refine ⟨start, by omega, ?_⟩
      rw [h.at_eq start (by omega), if_neg (by omega), if_pos rfl]
      exact hc
    rintro (hc | ⟨j, hj, hc⟩)
    · exact hstart (hmerged.mpr (.inl hc))
    rcases lt_or_ge j start with hlt | hge
    · exact ⟨j, by omega, by rw [h.at_eq j (by omega), if_pos hlt]; exact hc⟩
    rcases lt_or_ge j end_ with hlt' | hge'
    · exact hstart (hmerged.mpr (.inr ⟨j, hge, hlt', hc⟩))
    · refine ⟨j + 1 - (end_ - start), by omega, ?_⟩
      rw [h.at_eq _ (by omega), if_neg (by omega), if_neg (by omega),
        show j + 1 - (end_ - start) - 1 + (end_ - start) = j by omega]
      exact hc

end Insert

/-! ## The loops of `Canonicalize` -/

/-- Canonical up to a count, as a statement about a list. -/
theorem canonicalUpTo_iff (h : count ≤ list.length) :
    CanonicalUpTo list count ↔ Canonical (list.take count) := by
  have hat : ∀ i (hi : i < (list.take count).length), (list.take count)[i] = at_ list i := by
    intro i hi
    rw [length_take] at hi
    rw [getElem_take]
    exact (at_eq_of_getElem? (getElem?_eq_getElem (by omega))).symm
  have hlen : (list.take count).length = count := by rw [length_take]; omega
  constructor
  · intro hcan
    refine ⟨forall_mem_iff_forall_getElem.mpr fun i hi => ?_,
      pairwise_iff_getElem.mpr fun i j hi hj hij => ?_⟩
    · rw [hat i hi]
      exact hcan.valid i (by omega)
    · rw [hat i hi, hat j hj]
      exact hcan.sorted i j hij (by omega)
  · intro hcan
    refine ⟨fun i hi => ?_, fun i j hij hj => ?_⟩
    · rw [← hat i (by omega)]
      exact hcan.valid _ (getElem_mem _)
    · rw [← hat i (by omega), ← hat j (by omega)]
      exact pairwise_iff_getElem.mp hcan.sorted i j (by omega) (by omega) hij

/-- Covered up to a count, as a statement about a list. -/
theorem coversUpTo_iff (h : count ≤ list.length) (c : ℤ) :
    CoversUpTo list count c ↔ Covers (list.take count) c := by
  constructor
  · rintro ⟨i, hi, hc⟩
    refine ⟨at_ list i, mem_iff_getElem?.mpr ⟨i, ?_⟩, hc⟩
    rw [getElem?_take_of_lt hi, getElem?_eq_at (by omega)]
  rintro ⟨r, hr, hc⟩
  obtain ⟨i, hi⟩ := mem_iff_getElem?.mp hr
  have hlt := (List.getElem?_eq_some_iff.mp hi).1
  rw [length_take] at hlt
  rw [getElem?_take_of_lt (by omega)] at hi
  exact ⟨i, by omega, by rw [at_eq_of_getElem? hi]; exact hc⟩

/-- An insertion into a canonical list finds its position. -/
theorem CanonicalUpTo.insert (h : CanonicalUpTo list count) (hlen : count < list.length)
    (r : CharacterRange) :
    ∃ start end_, Positions list r count start end_ ∧
      Inserted list r count start end_ (insertRangeInCanonicalList list count r) := by
  have hpos := positions_insertPositions r h count count le_rfl le_rfl
    (fun j hj hj' => absurd hj' (by omega)) (fun j hj hj' => absurd hj' (by omega))
  exact ⟨_, _, hpos, inserted_insertRangeInCanonicalList hlen hpos.start_le hpos.end_le rfl⟩

/-- **The loop of `Canonicalize`**: the ranges that have been read are canonical and cover the same
code points. -/
theorem insertAll_spec (left : ℕ) :
    ∀ (read : ℕ) (list : List CharacterRange) (num : ℕ), CanonicalUpTo list num → num ≤ read →
      read + left = list.length → (∀ i, read ≤ i → i < list.length → (at_ list i).IsValid) →
      CanonicalUpTo (insertAll left read (list, num)).1 (insertAll left read (list, num)).2 ∧
        (insertAll left read (list, num)).2 ≤ (insertAll left read (list, num)).1.length ∧
        ∀ c, CoversUpTo (insertAll left read (list, num)).1 (insertAll left read (list, num)).2 c ↔
          CoversUpTo list num c ∨ ∃ i, read ≤ i ∧ i < list.length ∧ (at_ list i).Contains c := by
  induction left with
  | zero =>
    intro read list num hcan hnum hread hvalid
    refine ⟨hcan, by rw [insertAll]; dsimp only; omega, fun c => ?_⟩
    exact ⟨.inl, fun h => h.elim id fun ⟨i, hi, hi', _⟩ => absurd hi' (by omega)⟩
  | succ left ih =>
    intro read list num hcan hnum hread hvalid
    obtain ⟨start, end_, hpos, hins⟩ :=
      hcan.insert (by omega) (at_ list read)
    have hcount := hins.count_eq
    have hlen := hins.length_eq
    -- The ranges that are still to be read are the old ones.
    have hrest : ∀ i, read + 1 ≤ i →
        at_ (insertRangeInCanonicalList list num (at_ list read)).1 i = at_ list i :=
      fun i hi => hins.at_of_lt i (by omega)
    obtain ⟨hcan', hle', hcov'⟩ := ih (read + 1) _ _
      (hins.canonicalUpTo hpos hcan (hvalid read le_rfl (by omega))) (by omega) (by omega)
      (fun i hi hi' => by rw [hrest i hi]; exact hvalid i (by omega) (by omega))
    rw [insertAll]
    refine ⟨hcan', hle', fun c => ?_⟩
    rw [hcov' c, hins.coversUpTo_iff hpos hcan, or_assoc, or_left_comm]
    refine or_congr_right ⟨?_, ?_⟩
    · rintro (hc | ⟨i, hi, hi', hc⟩)
      · exact ⟨read, le_rfl, by omega, hc⟩
      · rw [hrest i hi] at hc
        exact ⟨i, by omega, by omega, hc⟩
    · rintro ⟨i, hi, hi', hc⟩
      rcases eq_or_lt_of_le hi with rfl | hlt
      · exact .inl hc
      · exact .inr ⟨i, hlt, by omega, by rw [hrest i hlt]; exact hc⟩

/-- The first loop of `Canonicalize` stops at the end of a canonical list. -/
theorem canonical_take_canonicalUntil (first : CharacterRange) (rest : List CharacterRange)
    (hvalid : ∀ r ∈ first :: rest, r.IsValid) :
    canonicalUntil first.to_ rest ≤ rest.length ∧
      Canonical ((first :: rest).take (1 + canonicalUntil first.to_ rest)) := by
  induction rest generalizing first with
  | nil =>
    refine ⟨le_rfl, hvalid, ?_⟩
    simp [canonicalUntil]
  | cons current rest ih =>
    rw [canonicalUntil]
    split
    next => exact ⟨by simp, by simpa using hvalid first (by simp), by simp⟩
    next hgt =>
      obtain ⟨hle, hcan⟩ := ih current fun r hr => hvalid r (by simp [hr])
      rw [add_comm 1] at hcan
      refine ⟨by simpa using hle, fun r hr => hvalid r (mem_of_mem_take hr), ?_⟩
      rw [add_comm 1, take_succ_cons, pairwise_cons]
      refine ⟨fun r hr => ?_, hcan.sorted⟩
      rw [take_succ_cons, mem_cons] at hr
      have hcurrent : first.Before current := by
        unfold Before
        omega
      rcases hr with rfl | hr
      · exact hcurrent
      have hsorted := hcan.sorted
      rw [take_succ_cons, pairwise_cons] at hsorted
      have hbefore := hsorted.1 r hr
      have hv := hvalid current (by simp)
      unfold Before IsValid at *
      omega

/-- **`Canonicalize` returns a canonical list of the same code points.** -/
theorem canonicalize_spec (ranges : List CharacterRange) (hvalid : ∀ r ∈ ranges, r.IsValid) :
    Canonical (canonicalize ranges) ∧ ∀ c, Covers (canonicalize ranges) c ↔ Covers ranges c := by
  cases ranges with
  | nil => exact ⟨⟨by simp [canonicalize], by simp [canonicalize]⟩, fun c => Iff.rfl⟩
  | cons first rest =>
    obtain ⟨hle, hcan⟩ := canonical_take_canonicalUntil first rest hvalid
    rw [canonicalize]
    split
    next hall =>
      rw [hall, take_length] at hcan
      exact ⟨hcan, fun c => Iff.rfl⟩
    next hpart =>
      rw [length_cons] at hpart ⊢
      generalize hi : 1 + canonicalUntil first.to_ rest = i at *
      have hi' : i ≤ (first :: rest).length := by rw [length_cons]; omega
      obtain ⟨hcan', hle', hcov⟩ := insertAll_spec (rest.length + 1 - i) i (first :: rest) i
        ((canonicalUpTo_iff hi').mpr hcan) le_rfl (by rw [length_cons]; omega)
        (fun j _ hj => hvalid _ (mem_of_getElem? (getElem?_eq_at hj)))
      refine ⟨(canonicalUpTo_iff hle').mp hcan', fun c => ?_⟩
      rw [← coversUpTo_iff hle', hcov c]
      constructor
      · rintro (hc | ⟨j, _, hj, hc⟩)
        · obtain ⟨r, hr, hc⟩ := (coversUpTo_iff hi' c).mp hc
          exact ⟨r, mem_of_mem_take hr, hc⟩
        · exact ⟨_, mem_of_getElem? (getElem?_eq_at hj), hc⟩
      · rintro ⟨r, hr, hc⟩
        obtain ⟨j, hj⟩ := mem_iff_getElem?.mp hr
        have hlt := (List.getElem?_eq_some_iff.mp hj).1
        rw [← at_eq_of_getElem? hj] at hc
        rcases lt_or_ge j i with hji | hji
        · exact .inl ⟨j, hji, hc⟩
        · exact .inr ⟨j, hji, hlt, hc⟩

/-- What a list of ranges covers, by its first range. -/
theorem covers_cons {c : ℤ} :
    Covers (r :: l) c ↔ (r.from_ ≤ c ∧ c ≤ r.to_) ∨ Covers l c := by
  simp [Covers, Contains]

/-! ## Negate -/

/-- The code points of Unicode. -/
def IsCodePoint (c : ℤ) : Prop := 0 ≤ c ∧ c ≤ kMaxCodePoint

/-- The gaps of a canonical list are canonical and cover what the list does not. -/
theorem negateFrom_spec (from_ : ℤ) (l : List CharacterRange) (hcan : Canonical l)
    (hfrom : from_ ≤ kMaxCodePoint) (hbelow : ∀ r ∈ l, from_ + 1 < r.from_)
    (hmax : ∀ r ∈ l, r.to_ ≤ kMaxCodePoint) :
    Canonical (negateFrom from_ l) ∧ (∀ r ∈ negateFrom from_ l, from_ < r.from_) ∧
      ∀ c, Covers (negateFrom from_ l) c ↔ from_ < c ∧ c ≤ kMaxCodePoint ∧ ¬Covers l c := by
  induction l generalizing from_ with
  | nil =>
    rw [negateFrom]
    split
    next hlt =>
      refine ⟨⟨?_, pairwise_singleton _ _⟩, ?_, fun c => ?_⟩
      · simpa [IsValid, Int.add_one_le_iff] using hlt
      · simp
      · simp only [Covers, Contains, mem_singleton, exists_eq_left, Int.add_one_le_iff, not_mem_nil,
          false_and, exists_false, not_false_eq_true, and_true]
    next hge =>
      refine ⟨⟨by simp, List.Pairwise.nil⟩, by simp, fun c => ?_⟩
      simp only [Covers, not_mem_nil, false_and, exists_false, not_false_eq_true, and_true,
        false_iff]
      omega
  | cons r l ih =>
    obtain ⟨hsorted, htail⟩ := pairwise_cons.mp hcan.sorted
    have hr := hcan.valid r (by simp)
    have hgap := hbelow r (by simp)
    unfold IsValid at hr
    obtain ⟨hcan', habove, hcov⟩ := ih r.to_ ⟨fun s hs => hcan.valid s (by simp [hs]), htail⟩
      (hmax r (by simp)) hsorted (fun s hs => hmax s (by simp [hs]))
    rw [negateFrom]
    refine ⟨⟨fun s hs => ?_, pairwise_cons.mpr ⟨fun s hs => ?_, hcan'.sorted⟩⟩, fun s hs => ?_,
      fun c => ?_⟩
    · rcases mem_cons.mp hs with rfl | hs
      · unfold IsValid
        dsimp only
        omega
      · exact hcan'.valid s hs
    · have := habove s hs
      unfold Before
      dsimp only
      omega
    · rcases mem_cons.mp hs with rfl | hs
      · dsimp only
        omega
      · have := habove s hs
        omega
    · -- A code point above `from` lies in the gap, in the range, or above the range.
      have hbetween : c ≤ r.to_ → ¬Covers l c := by
        rintro hle ⟨s, hs, hc⟩
        have := hsorted s hs
        unfold Before at this
        unfold Contains at hc
        omega
      have hmaxr := hmax r (by simp)
      rw [covers_cons, covers_cons, hcov c]
      by_cases hle : c ≤ r.to_
      · have hno := hbetween hle
        simp only [hno, or_false, not_false_eq_true, and_true]
        omega
      · by_cases hcl : Covers l c
        · simp only [hcl, or_true, not_true_eq_false, and_false, or_false, iff_false]
          omega
        · simp only [hcl, or_false, not_false_eq_true, and_true]
          omega

/-- If the list does not start at `0`, no range of the negated list does. -/
theorem negateFrom_pos (from_ : ℤ) (l : List CharacterRange) (hfrom : 0 ≤ from_)
    (hl : ∀ r ∈ l, 0 ≤ r.to_) : ∀ r ∈ negateFrom from_ l, 1 ≤ r.from_ := by
  induction l generalizing from_ with
  | nil =>
    rw [negateFrom]
    split
    · intro r hr
      rw [mem_singleton.mp hr]
      dsimp only
      omega
    · simp
  | cons s l ih =>
    intro r hr
    rw [negateFrom, mem_cons] at hr
    rcases hr with rfl | hr
    · dsimp only
      omega
    · exact ih s.to_ (hl s (by simp)) (fun t ht => hl t (by simp [ht])) r hr

/-- The negated list is right. -/
def NegatesTo (l negated : List CharacterRange) : Prop :=
  Canonical negated ∧ ∀ c, Covers negated c ↔ IsCodePoint c ∧ ¬Covers l c

/-- `Negate` is right for exactly those canonical lists that cover `0`. -/
theorem negatesTo_negate_iff (hcan : Canonical l)
    (hrange : ∀ c, Covers l c → IsCodePoint c) : NegatesTo l (negate l) ↔ Covers l 0 := by
  have hpoint : ∀ r ∈ l, 0 ≤ r.from_ ∧ r.from_ ≤ r.to_ ∧ r.to_ ≤ kMaxCodePoint := by
    intro r hr
    have hvalid := hcan.valid r hr
    unfold IsValid at hvalid
    exact ⟨(hrange r.from_ ⟨r, hr, le_rfl, hvalid⟩).1, hvalid,
      (hrange r.to_ ⟨r, hr, hvalid, le_rfl⟩).2⟩
  -- Without `0` the negated list lacks it as well.
  have hmissing : (∀ r ∈ negate l, 1 ≤ r.from_) → NegatesTo l (negate l) → Covers l 0 := by
    intro hpos hneg
    by_contra hzero
    obtain ⟨r, hr, hc⟩ := (hneg.2 0).mpr ⟨⟨le_rfl, by decide⟩, hzero⟩
    have := hpos r hr
    unfold Contains at hc
    omega
  cases l with
  | nil =>
    refine ⟨hmissing ?_, fun ⟨r, hr, _⟩ => absurd hr (by simp)⟩
    exact negateFrom_pos 0 [] le_rfl (by simp)
  | cons first rest =>
    by_cases hfirst : first.from_ = 0
    · have hzero : Covers (first :: rest) 0 :=
        ⟨first, by simp, by
          have := hpoint first (by simp)
          exact ⟨by omega, by omega⟩⟩
      refine iff_of_true ?_ hzero
      rw [negate, if_pos hfirst]
      obtain ⟨hsorted, htail⟩ := pairwise_cons.mp hcan.sorted
      have hvalid := hpoint first (by simp)
      obtain ⟨hcan', -, hcov⟩ := negateFrom_spec first.to_ rest
        ⟨fun r hr => hcan.valid r (by simp [hr]), htail⟩ hvalid.2.2 hsorted
        (fun r hr => (hpoint r (by simp [hr])).2.2)
      refine ⟨hcan', fun c => ?_⟩
      rw [hcov c, covers_cons, not_or]
      constructor
      · rintro ⟨hlt, hle, hno⟩
        exact ⟨⟨by omega, hle⟩, by omega, hno⟩
      · rintro ⟨⟨hge, hle⟩, hout, hno⟩
        exact ⟨by omega, hle, hno⟩
    · refine ⟨hmissing ?_, fun ⟨r, hr, hc⟩ => ?_⟩
      · rw [negate, if_neg hfirst]
        refine negateFrom_pos 0 _ le_rfl fun r hr => ?_
        have := hpoint r hr
        omega
      · -- The first range starts above `0`, and so do the others.
        have hp := hpoint r hr
        unfold Contains at hc
        rcases mem_cons.mp hr with rfl | hr
        · omega
        · have hbefore := (pairwise_cons.mp hcan.sorted).1 r hr
          have hf := hpoint first (by simp)
          unfold Before at hbefore
          omega

/-- **Canonicalize and Negate.** `Canonicalize` of any ranges of code points is a canonical list
with the same union. `Negate` of it is a canonical list of the complement if and only if one of the
ranges starts at `0`. -/
theorem canonicalize_negate_iff (ranges : List CharacterRange)
    (hranges : ∀ r ∈ ranges, 0 ≤ r.from_ ∧ r.from_ ≤ r.to_ ∧ r.to_ ≤ kMaxCodePoint) :
    Canonical (canonicalize ranges) ∧ (∀ c, Covers (canonicalize ranges) c ↔ Covers ranges c) ∧
      ((Canonical (negate (canonicalize ranges)) ∧
        ∀ c, Covers (negate (canonicalize ranges)) c ↔
          (0 ≤ c ∧ c ≤ kMaxCodePoint) ∧ ¬Covers ranges c) ↔ ∃ r ∈ ranges, r.from_ = 0) := by
  obtain ⟨hcan, hcov⟩ := canonicalize_spec ranges fun r hr => (hranges r hr).2.1
  have hrange : ∀ c, Covers (canonicalize ranges) c → IsCodePoint c := by
    intro c hc
    obtain ⟨r, hr, hc⟩ := (hcov c).mp hc
    have := hranges r hr
    unfold Contains at hc
    exact ⟨by omega, by omega⟩
  have hzero : Covers ranges 0 ↔ ∃ r ∈ ranges, r.from_ = 0 := by
    refine exists_congr fun r => and_congr_right fun hr => ?_
    have := hranges r hr
    unfold Contains
    omega
  refine ⟨hcan, hcov, ?_⟩
  rw [← hzero, ← hcov 0, ← negatesTo_negate_iff hcan hrange]
  simp only [NegatesTo, IsCodePoint, hcov]

/-- Three ranges in disorder, one of them from `0`. -/
theorem canonicalize_negate_iff_merge :
    canonicalize [⟨5, 9⟩, ⟨0, 2⟩, ⟨3, 4⟩] = [⟨0, 9⟩] ∧
      ∀ c, Covers (negate (canonicalize [⟨5, 9⟩, ⟨0, 2⟩, ⟨3, 4⟩])) c ↔
        (0 ≤ c ∧ c ≤ kMaxCodePoint) ∧ ¬Covers [⟨5, 9⟩, ⟨0, 2⟩, ⟨3, 4⟩] c := by
  have hranges : ∀ r ∈ [(⟨5, 9⟩ : CharacterRange), ⟨0, 2⟩, ⟨3, 4⟩],
      0 ≤ r.from_ ∧ r.from_ ≤ r.to_ ∧ r.to_ ≤ kMaxCodePoint := by decide
  have hnegate := (canonicalize_negate_iff _ hranges).2.2.mpr ⟨⟨0, 2⟩, by decide, rfl⟩
  exact ⟨by decide, hnegate.2⟩

/-- The class `[a]`: its negation does not contain the code point `0`. -/
theorem negate_misses_zero :
    negate (canonicalize [⟨97, 97⟩]) = [⟨1, 96⟩, ⟨98, kMaxCodePoint⟩] ∧
      ¬Covers (negate (canonicalize [⟨97, 97⟩])) 0 ∧ ¬Covers [⟨97, 97⟩] 0 := by
  have hnegate : negate (canonicalize [⟨97, 97⟩]) = [⟨1, 96⟩, ⟨98, kMaxCodePoint⟩] := by decide
  refine ⟨hnegate, ?_, ?_⟩
  · rw [hnegate]
    simp [Covers, Contains]
  · simp [Covers, Contains]

end DartVm.RegExp
