import DartVm.RegExp.Branches
import DartVm.RegExp.Canonical

/-! # The code of a character class is correct

The boundaries that `EmitCharClass` collects change sides exactly where the class does, so the code
that `GenerateBranches` emits for them fails on the characters outside the class.

* `Bounds`: boundaries that change sides where a set does.
* `Decides`: code that falls through on a set.
* `emitCharClass_correct`: the code of every class decides it. -/

namespace DartVm.RegExp

open ForwardCode List CharacterCheck Nat

/-! ## Boundaries -/

/-- The side of a character: it changes at each boundary. -/
def sideOf : List ℕ → ℕ → Bool
  | [], _ => false
  | b :: bs, c => if c < b then false else !sideOf bs c

/-- The boundaries of a whole class lead each character to its side. -/
theorem leadsTo_sideOf (bs : List ℕ) (hne : bs ≠ []) (even odd c : ℕ) :
    LeadsTo bs 0 (bs.length - 1) even odd c (if sideOf bs c then even else odd) := by
  induction bs generalizing even odd with
  | nil => exact absurd rfl hne
  | cons b bs ih =>
    rw [sideOf]
    by_cases hc : c < b
    · rw [if_pos hc]
      exact .inl ⟨hc, rfl⟩
    rw [if_neg hc]
    cases bs with
    | nil =>
      refine .inr ⟨0, ⟨le_rfl, le_rfl, Nat.le_of_not_lt hc, fun h => ?_⟩, rfl⟩
      exact absurd h (lt_irrefl _)
    | cons b' bs =>
      -- The rest of the list has the labels in the other order.
      right
      rcases ih (cons_ne_nil _ _) odd even with ⟨hlt, heq⟩ | ⟨i, hi, heq⟩
      · refine ⟨0, ⟨le_rfl, Nat.zero_le _, Nat.le_of_not_lt hc, fun _ => hlt⟩, ?_⟩
        rw [side, ← heq]
        cases sideOf (b' :: bs) c <;> rfl
      refine ⟨i + 1, ⟨zero_le _, succ_le_succ hi.le_end, hi.edge_le, fun h => ?_⟩, ?_⟩
      · exact hi.lt_edge (lt_of_succ_lt_succ h)
      have hflip : side even odd 0 (i + 1) = side odd even 0 i := by
        unfold side
        rcases mod_two_eq_zero_or_one i with h | h
        · rw [if_neg (by omega), if_pos (by omega)]
        · rw [if_pos (by omega), if_neg (by omega)]
      rw [hflip, ← heq]
      cases sideOf (b' :: bs) c <;> rfl

/-- The boundaries of a list of ranges. -/
def boundariesOf (maxChar : ℕ) (ranges : List CharacterRange) : List ℕ :=
  ranges.flatMap fun range : CharacterRange =>
    (if range.from_ = 0 then [] else [toUint16 range.from_]) ++
      if range.to_ + 1 ≤ (maxChar : ℤ) then [toUint16 (range.to_ + 1)] else []

variable {maxChar : ℕ} {ranges : List CharacterRange}

/-- The loop over the ranges of a class collects their boundaries. -/
theorem rangeBoundaries_eq (hpos : ∀ r ∈ ranges, r.from_ ≠ 0) (i : ℕ) (zeroth : Bool)
    (acc : List ℕ) :
    rangeBoundaries maxChar i ranges (zeroth, acc) =
      some (zeroth, acc ++ boundariesOf maxChar ranges) := by
  induction ranges generalizing i acc with
  | nil => simp [rangeBoundaries, boundariesOf]
  | cons range rest ih =>
    have hrange := hpos range (by simp)
    rw [rangeBoundaries, if_neg fun h => hrange h.1]
    simp only [if_neg hrange]
    rw [ih fun r hr => hpos r (by simp [hr])]
    simp only [boundariesOf, flatMap_cons, if_neg hrange]
    split <;> simp

variable {rest : List CharacterRange} {Q : ℕ → Prop}

/-- The first range may start at zero, and then the sides change places. -/
theorem rangeBoundaries_cons {range : CharacterRange} (hpos : ∀ r ∈ rest, r.from_ ≠ 0)
    (zeroth : Bool) :
    rangeBoundaries maxChar 0 (range :: rest) (zeroth, []) =
      some (xor zeroth (range.from_ = 0), boundariesOf maxChar (range :: rest)) := by
  rw [rangeBoundaries, if_neg fun h => h.2 rfl]
  by_cases hzero : range.from_ = 0
  · simp only [hzero, if_true, decide_true, Bool.xor_true]
    rw [rangeBoundaries_eq hpos]
    simp only [boundariesOf, flatMap_cons, if_pos hzero]
    split <;> simp
  · simp only [hzero, if_false, decide_false, Bool.xor_false]
    rw [rangeBoundaries_eq hpos]
    simp only [boundariesOf, flatMap_cons, if_neg hzero]
    split <;> simp

/-- **Boundaries of a set of characters**: they ascend above `lo`, and a character up to the largest
is on the side of the set if and only if it is in it. -/
structure Bounds (maxChar : ℕ) (lo : ℤ) (bs : List ℕ) (P : ℕ → Prop) : Prop where
  sorted : bs.Pairwise (· < ·)
  lo_lt : ∀ b ∈ bs, lo < b
  le_max : ∀ b ∈ bs, b ≤ maxChar
  side_iff : ∀ c ≤ maxChar, sideOf bs c ↔ P c

namespace Bounds

variable {maxChar : ℕ} {lo b : ℤ} {bs : List ℕ} {P : ℕ → Prop}

/-- One more boundary below the others turns the set around above it. -/
theorem cons (h : Bounds maxChar b bs P) (hlo : lo < b) (hpos : 0 ≤ b) (hle : b ≤ maxChar)
    (hmax : maxChar < 65536) :
    Bounds maxChar lo (toUint16 b :: bs) (fun c => b ≤ c ∧ ¬P c) := by
  have hb : (toUint16 b : ℤ) = b := by
    unfold toUint16
    omega
  refine ⟨?_, fun b' hb' => ?_, fun b' hb' => ?_, fun c hc => ?_⟩
  · rw [pairwise_cons]
    refine ⟨fun b' hb' => ?_, h.sorted⟩
    have := h.lo_lt b' hb'
    omega
  · rcases mem_cons.mp hb' with rfl | hb'
    · rwa [hb]
    · have := h.lo_lt b' hb'
      omega
  · rcases mem_cons.mp hb' with rfl | hb'
    · omega
    · exact h.le_max b' hb'
  · rw [sideOf]
    split
    · simp only [Bool.false_eq_true, false_iff, not_and]
      omega
    · rw [Bool.not_eq_true', ← Bool.not_eq_true, h.side_iff c hc]
      exact ⟨fun h => ⟨by omega, h⟩, fun h => h.2⟩

theorem congr (h : Bounds maxChar lo bs P) (hiff : ∀ c ≤ maxChar, P c ↔ Q c) :
    Bounds maxChar lo bs Q :=
  ⟨h.sorted, h.lo_lt, h.le_max, fun c hc => (h.side_iff c hc).trans (hiff c hc)⟩

/-- Without boundaries there are no characters. -/
theorem nil : Bounds maxChar lo [] (fun _ => False) :=
  ⟨List.Pairwise.nil, by simp, by simp, by simp [sideOf]⟩

end Bounds

variable {r : CharacterRange}

/-- The rest of a canonical list is canonical. -/
theorem Canonical.of_cons (h : Canonical (r :: rest)) : Canonical rest :=
  ⟨fun r' hr' => h.valid r' (by simp [hr']), (pairwise_cons.mp h.sorted).2⟩

/-- The first range of a canonical list lies before all others, with a gap. -/
theorem Canonical.before_of_mem {r' : CharacterRange} (h : Canonical (r :: rest))
    (hr' : r' ∈ rest) : r.to_ + 1 < r'.from_ :=
  (pairwise_cons.mp h.sorted).1 r' hr'

/-- What the end of a range adds to the boundaries of the ranges after it. -/
theorem Bounds.end_range (hcan : Canonical (r :: rest)) (hpos : 0 ≤ r.from_)
    (hmax : maxChar < 65536) (hfrom : ∀ r' ∈ r :: rest, r'.from_ ≤ maxChar)
    (ih : Bounds maxChar (r.to_ + 1) (boundariesOf maxChar rest) (fun c => Covers rest c)) :
    Bounds maxChar r.from_
      ((if r.to_ + 1 ≤ (maxChar : ℤ) then [toUint16 (r.to_ + 1)] else []) ++
        boundariesOf maxChar rest)
      (fun c => r.to_ < c ∧ ¬Covers rest c) := by
  have hvalid : r.from_ ≤ r.to_ := hcan.valid r (by simp)
  split
  next hle =>
    exact (ih.cons (by omega) (by omega) hle hmax).congr fun c _ => by rw [Int.add_one_le_iff]
  next hgt =>
    -- No valid range is left.
    cases rest with
    | nil =>
      refine Bounds.nil.congr fun c hc => ?_
      simp only [false_iff, not_and]
      omega
    | cons r' rest =>
      have : r.to_ + 1 < r'.from_ := hcan.before_of_mem (by simp)
      have := hfrom r' (by simp)
      omega

/-- The boundaries of a canonical list bound its characters. -/
theorem bounds_boundariesOf (lo : ℤ) (hcan : Canonical ranges) (hlo : 0 ≤ lo)
    (hmax : maxChar < 65536) (habove : ∀ r ∈ ranges, lo < r.from_)
    (hfrom : ∀ r ∈ ranges, r.from_ ≤ maxChar) :
    Bounds maxChar lo (boundariesOf maxChar ranges) (fun c => Covers ranges c) := by
  induction ranges generalizing lo with
  | nil => exact Bounds.nil.congr fun c _ => by simp [Covers]
  | cons r rest ih =>
    have hr := habove r (by simp)
    have hvalid : r.from_ ≤ r.to_ := hcan.valid r (by simp)
    have hrest := ih (r.to_ + 1) hcan.of_cons (by omega)
      (fun r' hr' => hcan.before_of_mem hr') (fun r' hr' => hfrom r' (by simp [hr']))
    have hend := hrest.end_range hcan (by omega) hmax hfrom
    have heq : boundariesOf maxChar (r :: rest) = toUint16 r.from_ ::
        ((if r.to_ + 1 ≤ (maxChar : ℤ) then [toUint16 (r.to_ + 1)] else []) ++
          boundariesOf maxChar rest) := by
      rw [boundariesOf, flatMap_cons, if_neg (by omega)]
      rfl
    rw [heq]
    refine (hend.cons hr (by omega) (hfrom r (by simp)) hmax).congr fun c _ => ?_
    rw [covers_cons]
    constructor
    · rintro ⟨hle, hnot⟩
      by_cases hto : (c : ℤ) ≤ r.to_
      · exact .inl ⟨hle, hto⟩
      · exact .inr (by_contra fun h => hnot ⟨by omega, h⟩)
    · rintro (hc | hc)
      · exact ⟨hc.1, fun h => by omega⟩
      · refine ⟨?_, fun h => h.2 hc⟩
        obtain ⟨r', hr', hle, -⟩ := hc
        have := hcan.before_of_mem hr'
        omega

/-- The boundaries where the first range starts at zero are those of the complement. -/
theorem bounds_boundariesOf_zero (hcan : Canonical (r :: rest)) (hzero : r.from_ = 0)
    (hmax : maxChar < 65536) (hfrom : ∀ r' ∈ r :: rest, r'.from_ ≤ maxChar) :
    Bounds maxChar 0 (boundariesOf maxChar (r :: rest)) (fun c => ¬Covers (r :: rest) c) := by
  have hvalid : r.from_ ≤ r.to_ := hcan.valid r (by simp)
  have hrest := bounds_boundariesOf (r.to_ + 1) hcan.of_cons (by omega) hmax
    (fun r' hr' => hcan.before_of_mem hr') (fun r' hr' => hfrom r' (by simp [hr']))
  have hend := hrest.end_range hcan (by omega) hmax hfrom
  have heq : boundariesOf maxChar (r :: rest) =
      (if r.to_ + 1 ≤ (maxChar : ℤ) then [toUint16 (r.to_ + 1)] else []) ++
        boundariesOf maxChar rest := by
    rw [boundariesOf, flatMap_cons, if_pos hzero]
    rfl
  rw [heq, ← hzero]
  refine hend.congr fun c _ => ?_
  rw [covers_cons, not_or]
  constructor
  · rintro ⟨hlt, hnot⟩
    exact ⟨fun h => by omega, hnot⟩
  · rintro ⟨hnot, hrest⟩
    exact ⟨by_contra fun h => hnot ⟨by omega, by omega⟩, hrest⟩

/-! ## Valid ranges -/

/-- A canonical list is canonical to its end. -/
theorem canonicalUntil_of_isCanonicalAfter {max : ℤ}
    (h : isCanonicalAfter max rest) : canonicalUntil max rest = rest.length := by
  induction rest generalizing max with
  | nil => rfl
  | cons r rest ih =>
    rw [isCanonicalAfter] at h
    split at h
    · exact absurd h Bool.false_ne_true
    next hgt => rw [canonicalUntil, if_neg hgt, ih h, length_cons]

/-- `EmitCharClass` may leave out `Canonicalize` where the list is canonical. -/
theorem canonicalize_of_isCanonical (h : isCanonical ranges) : canonicalize ranges = ranges := by
  cases ranges with
  | nil => rfl
  | cons first rest =>
    rw [canonicalize]
    rw [canonicalUntil_of_isCanonicalAfter h, if_pos (by rw [length_cons]; omega)]

/-- Ranges are only dropped. -/
theorem validRanges_le (ranges : List CharacterRange) (maxChar n : ℕ) :
    validRanges ranges maxChar n ≤ n := by
  induction n with
  | zero => exact le_rfl
  | succ n ih =>
    rw [validRanges]
    split <;> omega

/-- The last range that is kept begins below the greatest character. -/
theorem at_validRanges_le (ranges : List CharacterRange) (maxChar n : ℕ)
    (h : validRanges ranges maxChar n ≠ 0) :
    (at_ ranges (validRanges ranges maxChar n - 1)).from_ ≤ maxChar := by
  induction n with
  | zero => exact absurd rfl h
  | succ n ih =>
    rw [validRanges] at h ⊢
    split
    next hle => exact hle
    next hgt =>
      rw [if_neg hgt] at h
      exact ih h

/-- The ranges that are dropped begin above the greatest character. -/
theorem lt_at_of_validRanges_le {n i : ℕ} (hi : validRanges ranges maxChar n ≤ i)
    (hn : i < n) : maxChar < (at_ ranges i).from_ := by
  induction n with
  | zero => omega
  | succ n ih =>
    rw [validRanges] at hi
    split at hi
    · omega
    next hgt =>
      rcases eq_or_lt_of_le (le_of_lt_succ hn) with rfl | hlt
      · omega
      · exact ih hi hlt

section Valid

variable {ranges : List CharacterRange} {maxChar : ℕ}

/-- The ranges up to the last valid one are those that start at the largest character or below. -/
theorem from_le_of_mem_take (hcan : Canonical ranges)
    (hr : r ∈ ranges.take (validRanges ranges maxChar ranges.length)) : r.from_ ≤ maxChar := by
  obtain ⟨i, hi⟩ := mem_iff_getElem?.mp hr
  rw [getElem?_take] at hi
  split at hi
  next hlt =>
    have hle := validRanges_le ranges maxChar ranges.length
    have hlast := at_validRanges_le ranges maxChar ranges.length (by omega)
    rw [← at_eq_of_getElem? hi]
    rcases eq_or_lt_of_le (le_sub_one_of_lt hlt) with heq | hlt'
    · rwa [heq]
    have hupto := (canonicalUpTo_iff (le_refl ranges.length)).mpr (by rwa [take_length])
    have hbefore := hupto.sorted i _ hlt' (by omega)
    have hvalid := hupto.valid i (by omega)
    unfold CharacterRange.Before at hbefore
    unfold CharacterRange.IsValid at hvalid
    omega
  next => cases hi

/-- Dropping them does not change which characters are covered. -/
theorem covers_take_iff {c : ℕ} (hc : c ≤ maxChar) :
    Covers (ranges.take (validRanges ranges maxChar ranges.length)) c ↔ Covers ranges c := by
  constructor
  · rintro ⟨r, hr, hin⟩
    exact ⟨r, mem_of_mem_take hr, hin⟩
  rintro ⟨r, hr, hin⟩
  obtain ⟨i, hi⟩ := mem_iff_getElem?.mp hr
  have hlt := (List.getElem?_eq_some_iff.mp hi).1
  refine ⟨r, ?_, hin⟩
  rcases lt_or_ge i (validRanges ranges maxChar ranges.length) with hbelow | hge
  · exact mem_of_getElem? (i := i) (by rw [getElem?_take, if_pos hbelow, hi])
  · have hfrom := lt_at_of_validRanges_le hge hlt
    rw [at_eq_of_getElem? hi] at hfrom
    have := hin.1
    omega

end Valid

/-! ## The class -/

/-- Membership of a character in a class. -/
def CharacterClass.Contains (cc : CharacterClass) (c : ℕ) : Prop :=
  if cc.isNegated then ¬Covers cc.ranges c else Covers cc.ranges c

variable {P : ℕ → Prop} {bs : List ℕ}

/-- The boundaries of a class are ready for `GenerateBranches`. -/
theorem Bounds.ready (h : Bounds maxChar 0 bs P) (hne : bs ≠ [])
    (hmax : maxChar < 65536) (hpage : maxChar % kTableSize = kTableSize - 1) :
    Ready bs ⟨0, bs.length - 1, 0, maxChar⟩ := by
  have hlength : 0 < bs.length := length_pos_iff.mpr hne
  have hedge : ∀ i (hi : i < bs.length), edge bs i = bs[i] := fun i hi => by
    rw [edge, getD_eq_getElem?_getD, getElem?_eq_getElem hi, Option.getD_some]
  refine ⟨zero_le _, sub_one_lt_of_lt hlength, fun i _ hi => ?_, ?_, ?_, hmax, .inl hpage,
    fun _ i hi => absurd hi (not_lt_zero _)⟩
  · change i < bs.length - 1 at hi
    rw [hedge i (by omega), hedge (i + 1) (by omega)]
    exact pairwise_iff_getElem.mp h.sorted i (i + 1) _ _ (lt_succ_self _)
  · have := h.lo_lt _ (getElem_mem hlength)
    change 0 < edge bs 0
    rw [hedge 0 hlength]
    omega
  · change edge bs (bs.length - 1) ≤ maxChar
    rw [hedge _ (by omega)]
    exact h.le_max _ (getElem_mem _)

/-- Characters have at most 16 bits. -/
theorem maxCharOf_lt (oneByte : Bool) : maxCharOf oneByte < 65536 := by
  cases oneByte <;> decide

/-- The greatest character is the last one of its page. -/
theorem maxCharOf_mod (oneByte : Bool) : maxCharOf oneByte % kTableSize = kTableSize - 1 := by
  cases oneByte <;> rfl

/-- **Code that decides a set**: it falls through on its characters and fails on the others. -/
def Decides (maxChar onFailure : ℕ) (code : Code) (P : ℕ → Prop) : Prop :=
  ∀ c ≤ maxChar, (P c → exec (CharacterCheck.holds c) none code = none) ∧
    (¬P c → exec (CharacterCheck.holds c) none code = some onFailure)

theorem Decides.congr {onFailure : ℕ} {code : Code}
    (h : Decides maxChar onFailure code P) (hiff : ∀ c ≤ maxChar, P c ↔ Q c) :
    Decides maxChar onFailure code Q :=
  fun c hc => ⟨fun hq => (h c hc).1 ((hiff c hc).mpr hq), fun hq => (h c hc).2 fun hp =>
    hq ((hiff c hc).mp hp)⟩

/-- A check of the position does nothing where the subject has a character. -/
theorem exec_checkPosition (c onFailure : ℕ) (checkOffset : Bool) :
    exec (holds c) none
      (if checkOffset then [.branch .position onFailure] else []) = none := by
  cases checkOffset <;> rfl

/-- `GenerateBranches` on the boundaries of a set, with the labels of a class. -/
theorem Bounds.decides (h : Bounds maxChar 0 bs P) (onFailure : ℕ) (load : Code)
    (hne : bs ≠ []) (hmax : maxChar < 65536) (hpage : maxChar % kTableSize = kTableSize - 1)
    (hload : ∀ c, exec (holds c) none load = none) (zeroth : Bool) :
    ∃ emitted, generateBranches bs ⟨0, bs.length - 1, 0, maxChar⟩ (onFailure + 1)
        (if zeroth then onFailure + 1 else onFailure)
        (if zeroth then onFailure else onFailure + 1) (onFailure + 2) = some emitted ∧
      Decides maxChar onFailure (load ++ emitted.code ++ [.bind (onFailure + 1)])
        (fun c => P c ↔ zeroth) ∧
      ∀ p ∈ emitted.calls, p.2.boundaries < p.1.boundaries := by
  obtain ⟨emitted, heq, hemits⟩ := generateBranches_emits (onFailure + 1)
    (if zeroth then onFailure + 1 else onFailure) (if zeroth then onFailure else onFailure + 1)
    (onFailure + 2) (h.ready hne hmax hpage) (by split <;> omega) (by split <;> omega)
  refine ⟨emitted, heq, fun c hc => ?_, hemits.fewer⟩
  have hgoes := hemits.goes c _ (zero_le _) hc (leadsTo_sideOf bs hne _ _ c)
  have hside := h.side_iff c hc
  rw [exec_append, exec_append, hload]
  refine ⟨fun hp => ?_, fun hp => ?_⟩
  · have hlabel : (if sideOf bs c then (if zeroth then onFailure + 1 else onFailure)
        else (if zeroth then onFailure else onFailure + 1)) = onFailure + 1 := by
      cases hs : sideOf bs c <;> cases zeroth <;> simp_all
    rw [hlabel] at hgoes
    rcases hgoes with hjump | ⟨hend, -⟩
    · rw [hjump, exec_pending_bind, if_pos rfl, exec_nil]
    · rw [hend, exec_bind, exec_nil]
  · have hlabel : (if sideOf bs c then (if zeroth then onFailure + 1 else onFailure)
        else (if zeroth then onFailure else onFailure + 1)) = onFailure := by
      cases hs : sideOf bs c <;> cases zeroth <;> simp_all
    rw [hlabel] at hgoes
    rw [hgoes.exec_eq (by omega), exec_pending_bind, if_neg (by omega), exec_nil]

/-- The boundaries of a canonical list are those of its set, or of the complement where it starts at
zero. -/
theorem bounds_of_canonical (hcan : Canonical (r :: rest)) (hpos : 0 ≤ r.from_)
    (hmax : maxChar < 65536) (hfrom : ∀ r' ∈ r :: rest, r'.from_ ≤ maxChar) :
    Bounds maxChar 0 (boundariesOf maxChar (r :: rest))
      (fun c => Covers (r :: rest) c ↔ r.from_ ≠ 0) := by
  by_cases hzero : r.from_ = 0
  · refine (bounds_boundariesOf_zero hcan hzero hmax hfrom).congr fun c _ => ?_
    simp [hzero]
  have habove : ∀ r' ∈ r :: rest, 0 < r'.from_ := by
    intro r' hr'
    rcases mem_cons.mp hr' with rfl | hr'
    · omega
    · have hbefore := hcan.before_of_mem hr'
      have hvalid : r.from_ ≤ r.to_ := hcan.valid r (by simp)
      omega
  refine (bounds_boundariesOf 0 hcan (le_refl _) hmax habove hfrom).congr fun c _ => ?_
  simp [hzero]

theorem boundariesOf_ne_nil (hcan : Canonical (r :: rest))
    (hfrom : ∀ r' ∈ r :: rest, r'.from_ ≤ maxChar) (hsome : ¬(rest = [] ∧ r.isEverything maxChar)) :
    boundariesOf maxChar (r :: rest) ≠ [] := by
  rw [boundariesOf, List.flatMap_cons]
  by_cases hzero : r.from_ = 0
  · by_cases hto : r.to_ + 1 ≤ (maxChar : ℤ)
    · rw [if_pos hto]
      simp
    refine absurd ⟨?_, ?_⟩ hsome
    · cases rest with
      | nil => rfl
      | cons r' rest =>
        have : r.to_ + 1 < r'.from_ := hcan.before_of_mem (by simp)
        have := hfrom r' (by simp)
        omega
    · simp only [CharacterRange.isEverything, decide_eq_true_eq]
      omega
  · simp [hzero]

/-- **The code of a class decides it**, and its calls keep their assertions. -/
theorem emitCharClass_decides (cc : CharacterClass) (oneByte : Bool) (onFailure : ℕ)
    (checkOffset preloaded : Bool) (hvalid : ∀ r ∈ cc.ranges, 0 ≤ r.from_ ∧ r.IsValid) :
    ∃ code calls, emitCharClass cc oneByte onFailure checkOffset preloaded = some (code, calls) ∧
      Decides (maxCharOf oneByte) onFailure code cc.Contains ∧
      ∀ p ∈ calls, p.2.boundaries < p.1.boundaries := by
  obtain ⟨hcan, hcovers⟩ := canonicalize_spec cc.ranges fun r hr => (hvalid r hr).2
  have hranges : (if isCanonical cc.ranges then cc.ranges else canonicalize cc.ranges) =
      canonicalize cc.ranges := by
    split
    next h => exact (canonicalize_of_isCanonical h).symm
    next => rfl
  rw [emitCharClass]
  rw [hranges]
  generalize hmaxChar : maxCharOf oneByte = maxChar
  have hmax : maxChar < 65536 := hmaxChar ▸ maxCharOf_lt oneByte
  have hpage : maxChar % kTableSize = kTableSize - 1 := hmaxChar ▸ maxCharOf_mod oneByte
  have htake : ∀ c : ℕ, c ≤ maxChar → (Covers ((canonicalize cc.ranges).take
      (validRanges (canonicalize cc.ranges) maxChar (canonicalize cc.ranges).length)) c ↔
        Covers cc.ranges c) :=
    fun c hc => (covers_take_iff hc).trans (hcovers c)
  have hfrom : ∀ r ∈ (canonicalize cc.ranges).take
      (validRanges (canonicalize cc.ranges) maxChar (canonicalize cc.ranges).length),
      r.from_ ≤ maxChar := fun r hr => from_le_of_mem_take hcan hr
  have hcount := validRanges_le (canonicalize cc.ranges) maxChar (canonicalize cc.ranges).length
  generalize validRanges (canonicalize cc.ranges) maxChar (canonicalize cc.ranges).length = count
    at htake hfrom hcount ⊢
  have hcan' : Canonical ((canonicalize cc.ranges).take count) :=
    ⟨fun r hr => hcan.valid r (mem_of_mem_take hr), hcan.sorted.sublist (take_sublist _ _)⟩
  by_cases hzero : count = 0
  · -- No range reaches the characters of the subject.
    subst hzero
    refine ⟨_, _, rfl, fun c hc => ?_, by simp⟩
    have hnot : ¬Covers cc.ranges c := by
      rw [← htake c hc]
      simp [Covers]
    rw [CharacterClass.Contains]
    cases cc.isNegated with
    | false =>
      refine ⟨fun h => absurd h hnot, fun _ => exec_of_notMem ?_⟩
      cases checkOffset <;> exact not_mem_nil
    | true => exact ⟨fun _ => exec_checkPosition c onFailure checkOffset, fun h => absurd hnot h⟩
  rw [if_neg hzero]
  obtain ⟨r, rest, hcons⟩ : ∃ r rest, (canonicalize cc.ranges).take count = r :: rest :=
    exists_cons_of_ne_nil (by
      rw [ne_eq, take_eq_nil_iff, not_or]
      exact ⟨hzero, fun h => hzero (by rw [h, length_nil] at hcount; omega)⟩)
  rw [hcons] at htake hfrom hcan'
  have hlength : count = rest.length + 1 := by
    rw [← length_cons, ← hcons, length_take]
    omega
  have hat : at_ (canonicalize cc.ranges) 0 = r := by
    apply at_eq_of_getElem?
    have h := congrArg (fun l => l[0]?) hcons
    rwa [getElem?_take, if_pos (by omega)] at h
  rw [hat]
  by_cases hevery : count = 1 ∧ r.isEverything maxChar
  · rw [if_pos hevery]
    refine ⟨_, _, rfl, fun c hc => ?_, by simp⟩
    have hcov : Covers cc.ranges c := by
      rw [← htake c hc, covers_cons]
      have h := hevery.2
      simp only [CharacterRange.isEverything, decide_eq_true_eq] at h
      exact .inl ⟨by omega, by omega⟩
    rw [CharacterClass.Contains]
    cases cc.isNegated with
    | false => exact ⟨fun _ => exec_checkPosition c onFailure checkOffset, fun h => absurd hcov h⟩
    | true => exact ⟨fun h => absurd hcov h, fun _ => rfl⟩
  rw [if_neg hevery]
  have hpos : 0 ≤ r.from_ := by
    have hmem : r ∈ (canonicalize cc.ranges).take count := by simp [hcons]
    obtain ⟨r', hr', hle, -⟩ := (hcovers r.from_).mp
      ⟨r, mem_of_mem_take hmem, le_refl _, hcan'.valid r (by simp)⟩
    exact (hvalid r' hr').1.trans hle
  have hrest : ∀ r' ∈ rest, r'.from_ ≠ 0 := by
    intro r' hr'
    have hbefore := hcan'.before_of_mem hr'
    have hvalid : r.from_ ≤ r.to_ := hcan'.valid r (by simp)
    omega
  rw [hcons, rangeBoundaries_cons hrest]
  dsimp only
  obtain ⟨emitted, heq, hdecides, hfewer⟩ :=
    (bounds_of_canonical hcan' hpos hmax hfrom).decides onFailure
      (if preloaded then [] else if checkOffset then [.branch .position onFailure] else [])
      (boundariesOf_ne_nil hcan' hfrom fun h => hevery ⟨by simp [hlength, h.1], h.2⟩) hmax hpage
      (fun c => by cases preloaded <;> cases checkOffset <;> rfl)
      (xor (!cc.isNegated) (decide (r.from_ = 0)))
  rw [heq]
  refine ⟨_, _, rfl, hdecides.congr fun c hc => ?_, hfewer⟩
  rw [CharacterClass.Contains, htake c hc]
  cases cc.isNegated <;> by_cases hfrom : r.from_ = 0 <;> simp [hfrom]

/-- **The code of a character class is correct.** For every class and every code unit of the
subject's width, no `ASSERT` fails, and the code jumps to `onFailure` if the character is not in the
class and falls through otherwise; each recursive call of `GenerateBranches` is about fewer
boundaries than its caller. -/
theorem emitCharClass_correct (cc : CharacterClass) (oneByte : Bool) (onFailure : ℕ)
    (checkOffset preloaded : Bool) (hvalid : ∀ r ∈ cc.ranges, 0 ≤ r.from_ ∧ r.IsValid) :
    ∃ code calls, emitCharClass cc oneByte onFailure checkOffset preloaded = some (code, calls) ∧
      (∀ c ≤ maxCharOf oneByte,
        (exec (holds c) none code = some onFailure ↔ ¬cc.Contains c) ∧
        (cc.Contains c → exec (holds c) none code = none)) ∧
      ∀ p ∈ calls, p.2.boundaries < p.1.boundaries := by
  obtain ⟨code, calls, heq, hdecides, hfewer⟩ :=
    emitCharClass_decides cc oneByte onFailure checkOffset preloaded hvalid
  refine ⟨code, calls, heq, fun c hc => ⟨⟨fun hfail hin => ?_, (hdecides c hc).2⟩,
    (hdecides c hc).1⟩, hfewer⟩
  rw [(hdecides c hc).1 hin] at hfail
  cases hfail

/-- Letters of several pages, in no order: the class is split at page borders, and a table tells its
Latin letters apart. -/
theorem emitCharClass_correct_letters :
    ∃ code calls, emitCharClass ⟨[⟨0x61, 0x7A⟩, ⟨0x41, 0x5A⟩, ⟨0x30, 0x39⟩, ⟨0x5F, 0x5F⟩,
        ⟨0x3B1, 0x3C9⟩, ⟨0x410, 0x44F⟩], false⟩ false 0 true false = some (code, calls) ∧
      exec (holds 0x3B2) none code = none ∧
      exec (holds 0x60) none code = some 0 := by
  obtain ⟨code, calls, heq, hdecides, -⟩ := emitCharClass_correct
    ⟨[⟨0x61, 0x7A⟩, ⟨0x41, 0x5A⟩, ⟨0x30, 0x39⟩, ⟨0x5F, 0x5F⟩, ⟨0x3B1, 0x3C9⟩,
      ⟨0x410, 0x44F⟩], false⟩
    false 0 true false (by simp [CharacterRange.IsValid])
  refine ⟨code, calls, heq, (hdecides 0x3B2 (by decide)).2 ?_, (hdecides 0x60 (by decide)).1.mpr ?_⟩
  · exact ⟨⟨0x3B1, 0x3C9⟩, by simp, by decide, by decide⟩
  · simp [CharacterClass.Contains, Covers, CharacterRange.Contains]

end DartVm.RegExp
