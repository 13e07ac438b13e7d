import Mathlib.Data.List.Basic
import Mathlib.Order.Nat

/-! # Half-open intervals of natural numbers

Non-empty intervals `[begin, end)` and lists of them, as allocators and table packers use them.

* `Separated`: the intervals of a list lie one before the other; `Covers`: one of them holds a
  number.
* `diff`: what is left of an interval when a part of it is taken out.
* `IsRun`: the maximal runs of a predicate; `Laminar`: two intervals are nested or disjoint. -/

namespace DartVm

open List

/-- **Half-open interval** `[begin, end)`, never empty. -/
@[ext]
structure Interval where
  begin_ : ℕ
  /-- The first number behind the interval. -/
  end_ : ℕ
  lt : begin_ < end_
deriving DecidableEq

namespace Interval

instance : Membership ℕ Interval := ⟨fun I x => I.begin_ ≤ x ∧ x < I.end_⟩

theorem mem_iff {I : Interval} {x : ℕ} : x ∈ I ↔ I.begin_ ≤ x ∧ x < I.end_ := Iff.rfl

instance (I : Interval) (x : ℕ) : Decidable (x ∈ I) :=
  inferInstanceAs (Decidable (I.begin_ ≤ x ∧ x < I.end_))

/-- The number of elements. -/
def length (I : Interval) : ℕ := I.end_ - I.begin_

/-- The interval moved up by `offset`. -/
def shift (I : Interval) (offset : ℕ) : Interval :=
  ⟨I.begin_ + offset, I.end_ + offset, Nat.add_lt_add_right I.lt offset⟩

/-- `I` ends before `J` begins. -/
def IsBefore (I J : Interval) : Prop := I.end_ ≤ J.begin_

/-- `I` is a part of `J`. -/
def Within (I J : Interval) : Prop := J.begin_ ≤ I.begin_ ∧ I.end_ ≤ J.end_

instance (I J : Interval) : Decidable (I.Within J) := inferInstanceAs (Decidable (_ ∧ _))

variable {I J K : Interval} {x offset : ℕ}

@[simp] theorem begin_shift : (I.shift offset).begin_ = I.begin_ + offset := rfl

@[simp] theorem end_shift : (I.shift offset).end_ = I.end_ + offset := rfl

/-- What a shifted interval holds. -/
theorem mem_shift : x ∈ I.shift offset ↔ ∃ y ∈ I, x = y + offset := by
  simp only [mem_iff, begin_shift, end_shift]
  constructor
  · intro h
    exact ⟨x - offset, by omega, by omega⟩
  · rintro ⟨y, h, rfl⟩
    omega

/-- Intervals are not empty. -/
theorem begin_mem (I : Interval) : I.begin_ ∈ I := ⟨Nat.le_refl _, I.lt⟩

/-- Inclusion of intervals is inclusion of their numbers. -/
theorem Within.mem (h : I.Within J) (hx : x ∈ I) : x ∈ J :=
  ⟨Nat.le_trans h.1 hx.1, Nat.lt_of_lt_of_le hx.2 h.2⟩

theorem Within.trans (h1 : I.Within J) (h2 : J.Within K) : I.Within K :=
  ⟨h2.1.trans h1.1, h1.2.trans h2.2⟩

/-- Intervals one before the other are disjoint. -/
theorem IsBefore.not_mem (h : I.IsBefore J) (hx : x ∈ I) : x ∉ J :=
  fun hy => absurd (Nat.le_trans h hy.1) (Nat.not_le.mpr hx.2)

/-! ## Lists of intervals -/

/-- The intervals of the list lie one before the other. -/
def Separated (l : List Interval) : Prop := l.Pairwise IsBefore

/-- Some interval of the list holds `x`. -/
def Covers (l : List Interval) (x : ℕ) : Prop := ∃ I ∈ l, x ∈ I

variable {l : List Interval}

/-- What a list of intervals covers, by its first interval. -/
theorem covers_cons : Covers (I :: l) x ↔ x ∈ I ∨ Covers l x := by
  simp [Covers]

/-- What two lists of intervals cover. -/
theorem covers_append {l' : List Interval} : Covers (l ++ l') x ↔ Covers l x ∨ Covers l' x := by
  simp only [Covers, mem_append, or_and_right, exists_or]

/-- Shifting keeps intervals separated. -/
theorem Separated.map_shift (h : Separated l) (offset : ℕ) :
    Separated (l.map (·.shift offset)) := by
  refine Pairwise.map _ (fun I J hIJ => ?_) h
  exact Nat.add_le_add_right hIJ offset

/-- What shifted intervals cover. -/
theorem covers_map_shift :
    Covers (l.map (·.shift offset)) x ↔ ∃ y, Covers l y ∧ x = y + offset := by
  simp only [Covers, List.mem_map]
  constructor
  · rintro ⟨_, ⟨I, hI, rfl⟩, hx⟩
    obtain ⟨y, hy, rfl⟩ := mem_shift.mp hx
    exact ⟨y, ⟨I, hI, hy⟩, rfl⟩
  · rintro ⟨y, ⟨I, hI, hy⟩, rfl⟩
    exact ⟨_, ⟨I, hI, rfl⟩, mem_shift.mpr ⟨y, hy, rfl⟩⟩

/-! ## Taking a part out -/

/-- What is left of `slot` when its part `range` is taken out. -/
def diff (slot range : Interval) : List Interval :=
  (if h : slot.begin_ < range.begin_ then [⟨slot.begin_, range.begin_, h⟩] else []) ++
    (if h : range.end_ < slot.end_ then [⟨range.end_, slot.end_, h⟩] else [])

variable {range slot : Interval}

/-- The parts left and right of a range that has been cut out. -/
theorem mem_diff : I ∈ diff slot range ↔
    (I.begin_ = slot.begin_ ∧ I.end_ = range.begin_) ∨
      (I.begin_ = range.end_ ∧ I.end_ = slot.end_) := by
  have hlt := I.lt
  unfold diff
  rw [mem_append]
  refine or_congr ?_ ?_ <;> split_ifs with h
  · rw [mem_singleton, Interval.ext_iff]
  · exact ⟨fun hI => absurd hI (not_mem_nil), fun hI => absurd hlt (by omega)⟩
  · rw [mem_singleton, Interval.ext_iff]
  · exact ⟨fun hI => absurd hI (not_mem_nil), fun hI => absurd hlt (by omega)⟩

/-- Cutting out a range leaves the rest. -/
theorem covers_diff (h : range.Within slot) :
    Covers (diff slot range) x ↔ x ∈ slot ∧ x ∉ range := by
  have hr := range.lt
  obtain ⟨hb, he⟩ := h
  constructor
  · rintro ⟨I, hI, hx⟩
    rw [mem_iff] at hx
    rw [mem_iff, mem_iff]
    rcases mem_diff.mp hI with ⟨h1, h2⟩ | ⟨h1, h2⟩ <;> omega
  · rintro ⟨hx, hxr⟩
    rw [mem_iff] at hx hxr
    by_cases hxb : x < range.begin_
    · exact ⟨⟨slot.begin_, range.begin_, by omega⟩, mem_diff.mpr (.inl ⟨rfl, rfl⟩), hx.1, hxb⟩
    · exact ⟨⟨range.end_, slot.end_, by omega⟩, mem_diff.mpr (.inr ⟨rfl, rfl⟩),
        show range.end_ ≤ x by omega, hx.2⟩

/-- The parts that are left are separated. -/
theorem separated_diff : Separated (diff slot range) := by
  have hr := range.lt
  unfold diff Separated
  split_ifs <;> simp [IsBefore, hr.le]

/-- The parts that are left lie inside. -/
theorem within_of_mem_diff (h : range.Within slot) (hI : I ∈ diff slot range) : I.Within slot := by
  have hr := range.lt
  obtain ⟨hb, he⟩ := h
  rcases mem_diff.mp hI with ⟨h1, h2⟩ | ⟨h1, h2⟩ <;> unfold Within <;> omega

section Replace

variable {slot range : Interval} {pre post : List Interval}

/-- Cutting a range out of one interval keeps a list separated. -/
theorem separated_replace (h : Separated (pre ++ slot :: post)) (hr : range.Within slot) :
    Separated (pre ++ (diff slot range ++ post)) := by
  unfold Separated at h ⊢
  rw [pairwise_append, pairwise_cons] at h
  obtain ⟨hpre, ⟨hslot, hpost⟩, hcross⟩ := h
  rw [pairwise_append, pairwise_append]
  refine ⟨hpre, ⟨separated_diff, hpost, fun I hI J hJ => ?_⟩, fun I hI J hJ => ?_⟩
  · exact Nat.le_trans (within_of_mem_diff hr hI).2 (hslot J hJ)
  · rcases mem_append.mp hJ with hJ | hJ
    · exact Nat.le_trans (hcross I hI slot (by simp)) (within_of_mem_diff hr hJ).1
    · exact hcross I hI J (by simp [hJ])

/-- **Cutting a range out of a list** of separated intervals takes away its numbers and no
others. -/
theorem covers_replace (h : Separated (pre ++ slot :: post)) (hr : range.Within slot) :
    Covers (pre ++ (diff slot range ++ post)) x ↔ Covers (pre ++ slot :: post) x ∧ x ∉ range := by
  unfold Separated at h
  rw [pairwise_append, pairwise_cons] at h
  obtain ⟨-, ⟨hslot, -⟩, hcross⟩ := h
  -- The other intervals do not meet `slot`, let alone `range`.
  have hpre : Covers pre x → x ∉ range := fun ⟨I, hI, hx⟩ hxr =>
    (hcross I hI slot (by simp)).not_mem hx (hr.mem hxr)
  have hpost : Covers post x → x ∉ range := fun ⟨I, hI, hx⟩ hxr =>
    (hslot I hI).not_mem (hr.mem hxr) hx
  simp only [covers_append, covers_cons, covers_diff hr]
  tauto

end Replace

/-! ## Runs and laminar families -/

/-- `I` is a maximal run of numbers below `n` with `p`. -/
structure IsRun (p : ℕ → Bool) (n : ℕ) (I : Interval) : Prop where
  holds : ∀ x ∈ I, p x
  end_le : I.end_ ≤ n
  left_maximal : I.begin_ = 0 ∨ p (I.begin_ - 1) = false
  right_maximal : I.end_ = n ∨ p I.end_ = false

/-- Two intervals are nested or disjoint. -/
def Laminar (I J : Interval) : Prop := I.Within J ∨ J.Within I ∨ I.IsBefore J ∨ J.IsBefore I

theorem Laminar.symm (h : Laminar I J) : Laminar J I := by
  unfold Laminar at h ⊢
  tauto

/-- Disjoint intervals are apart. -/
theorem laminar_of_disjoint (h : ∀ x ∈ I, x ∉ J) : Laminar I J := by
  have h1 := I.lt
  have h2 := J.lt
  have hI := h I.begin_
  have hJ := h J.begin_
  simp only [mem_iff] at hI hJ
  unfold Laminar IsBefore
  omega

/-- A single number is nested in or apart from every interval. -/
theorem laminar_singleton (h : I.end_ = I.begin_ + 1) : Laminar I J := by
  unfold Laminar IsBefore Within
  omega

/-- Runs of a stronger property lie inside the runs that they meet. -/
theorem IsRun.within_of_lt {p q : ℕ → Bool} {n : ℕ} (hI : IsRun p n I) (hJ : IsRun q n J)
    (hpq : ∀ x < n, q x → p x) (hxI : x ∈ I) (hxJ : x ∈ J) : J.Within I := by
  have hend := hJ.end_le
  rw [mem_iff] at hxI hxJ
  constructor
  · -- Otherwise the number in front of `I` is in `J`.
    by_contra hlt
    have hmem : I.begin_ - 1 ∈ J := by
      rw [mem_iff]
      omega
    rcases hI.left_maximal with h0 | hfalse
    · omega
    · exact absurd (hpq _ (by omega) (hJ.holds _ hmem)) (by simp [hfalse])
  · by_contra hlt
    have hmem : I.end_ ∈ J := by
      rw [mem_iff]
      omega
    rcases hI.right_maximal with hn | hfalse
    · omega
    · exact absurd (hpq _ (by omega) (hJ.holds _ hmem)) (by simp [hfalse])

end Interval

end DartVm
