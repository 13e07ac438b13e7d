import Mathlib.Order.Basic
import Mathlib.Data.Int.Order.Basic

/-! # Recording values for intervals of offsets

A recorder gets intervals of increasing offsets with a value for each.  It keeps the last one
pending: `flush` records the pending value, `change` replaces it, `advance` extends the interval.
What is recorded is exact as long as the value is only changed when nothing is pending.

* `State`, `Inv`: the recorder and its invariant.
* `Inv.exact_flush`: flushing is exact.
* `Inv.not_exact_overwrite`: overwriting is not. -/

namespace DartVm.PendingInterval

open List

variable {α : Type} {v : α} {offset : ℤ}

/-- The offsets `start .. stop - 1` with their value. -/
structure Interval (α : Type) where
  start : ℤ
  stop : ℤ
  value : α
deriving DecidableEq

/-- **State of the recorder.** Values are recorded below `written`; the pending interval is
`written .. buffered - 1`. -/
structure State (α : Type) where
  written : ℤ
  buffered : ℤ
  value : α
  recorded : ℤ → α
  /-- What the recorder was given. -/
  intervals : List (Interval α)

namespace State

/-- Records the pending value. -/
def flush (t : State α) : State α :=
  { t with
    written := t.buffered
    recorded := fun offset => if offset < t.written then t.recorded offset else t.value }

/-- Changes the pending value. -/
def change (t : State α) (v : α) : State α := { t with value := v }

/-- Extends the pending interval up to an offset. -/
def advance (t : State α) (offset : ℤ) : State α :=
  { t with
    buffered := offset
    intervals := t.intervals ++ [⟨t.buffered, offset, t.value⟩] }

/-- Writing the pending interval out gives its offsets their value. -/
theorem flush_recorded (t : State α) (offset : ℤ) :
    t.flush.recorded offset = if offset < t.written then t.recorded offset else t.value := rfl

end State

variable {t t' : State α}

/-- **Invariant.** The intervals cover the offsets below `buffered`; the pending ones have the
pending value. -/
structure Inv (t : State α) : Prop where
  nonneg : 0 ≤ t.written
  le : t.written ≤ t.buffered
  start_nonneg : ∀ i ∈ t.intervals, 0 ≤ i.start
  within : ∀ i ∈ t.intervals, i.stop ≤ t.buffered
  covered : ∀ offset, 0 ≤ offset → offset < t.buffered →
    ∃ i ∈ t.intervals, i.start ≤ offset ∧ offset < i.stop
  ordered : t.intervals.Pairwise fun i j => i.stop ≤ j.start
  pending : ∀ i ∈ t.intervals, ∀ offset, i.start ≤ offset → offset < i.stop →
    t.written ≤ offset → i.value = t.value

/-- **Exactness.** The recorded values are those of the intervals. -/
def Exact (t : State α) : Prop :=
  ∀ i ∈ t.intervals, ∀ offset, i.start ≤ offset → offset < i.stop → offset < t.written →
    t.recorded offset = i.value

/-! ## Flushing -/

/-- Writing out keeps the order of the offsets. -/
theorem Inv.flush (h : Inv t) : Inv t.flush where
  nonneg := h.nonneg.trans h.le
  le := le_refl _
  start_nonneg := h.start_nonneg
  within := h.within
  covered := h.covered
  ordered := h.ordered
  pending i hi offset _ hlt hwritten := absurd (h.within i hi) (by
    have : t.buffered ≤ offset := hwritten
    omega)

/-- What is exact after writing out has been exact before. -/
theorem Exact.of_flush (h : Exact t.flush) (hle : t.written ≤ t.buffered) : Exact t := by
  intro i hi offset hstart hstop hwritten
  have hrecorded := h i hi offset hstart hstop (lt_of_lt_of_le hwritten hle)
  rwa [State.flush_recorded, if_pos hwritten] at hrecorded

/-- **Writing out does not change what is recorded.** -/
theorem Inv.exact_flush (h : Inv t) : Exact t.flush ↔ Exact t := by
  refine ⟨fun hexact => hexact.of_flush h.le, fun hexact i hi offset hstart hstop _ => ?_⟩
  rw [State.flush_recorded]
  split_ifs with hwritten
  · exact hexact i hi offset hstart hstop hwritten
  · exact (h.pending i hi offset hstart hstop (not_lt.mp hwritten)).symm

/-! ## Changing the value -/

/-- The value may change while nothing is pending. -/
theorem Inv.change (h : Inv t) (hv : t.written = t.buffered ∨ v = t.value) : Inv (t.change v) where
  nonneg := h.nonneg
  le := h.le
  start_nonneg := h.start_nonneg
  within := h.within
  covered := h.covered
  ordered := h.ordered
  pending i hi offset hstart hstop hwritten := by
    rcases hv with hflushed | rfl
    · exact absurd (h.within i hi) (by
        have : t.written ≤ offset := hwritten
        omega)
    · exact h.pending i hi offset hstart hstop hwritten

theorem exact_change : Exact (t.change v) ↔ Exact t := Iff.rfl

/-! ## Advancing -/

/-- The pending interval may grow. -/
theorem Inv.advance (h : Inv t) (hle : t.buffered ≤ offset) : Inv (t.advance offset) where
  nonneg := h.nonneg
  le := h.le.trans hle
  start_nonneg i hi := by
    rcases mem_append.mp hi with hi | hi
    · exact h.start_nonneg i hi
    · rw [mem_singleton.mp hi]
      exact h.nonneg.trans h.le
  within i hi := by
    rcases mem_append.mp hi with hi | hi
    · exact (h.within i hi).trans hle
    · rw [mem_singleton.mp hi]
      exact le_refl offset
  covered o ho hlt := by
    rcases lt_or_ge o t.buffered with hbuffered | hbuffered
    · obtain ⟨i, hi, hcontains⟩ := h.covered o ho hbuffered
      exact ⟨i, mem_append_left _ hi, hcontains⟩
    · exact ⟨_, mem_append_right _ (mem_singleton_self _), hbuffered, hlt⟩
  ordered := by
    refine pairwise_append.mpr ⟨h.ordered, pairwise_singleton .., fun i hi j hj => ?_⟩
    rw [mem_singleton.mp hj]
    exact h.within i hi
  pending i hi o hstart hstop hwritten := by
    rcases mem_append.mp hi with hi | hi
    · exact h.pending i hi o hstart hstop hwritten
    · rw [mem_singleton.mp hi]
      rfl

/-- Growing the pending interval records nothing that has been recorded before. -/
theorem exact_advance (hle : t.written ≤ t.buffered) : Exact (t.advance offset) ↔ Exact t := by
  constructor
  · intro h i hi
    exact h i (mem_append_left _ hi)
  intro h i hi o hstart hstop hwritten
  rcases mem_append.mp hi with hi | hi
  · exact h i hi o hstart hstop hwritten
  · -- The new interval is pending.
    rw [mem_singleton.mp hi] at hstart
    exact absurd (lt_of_lt_of_le hwritten hle) (not_lt.mpr hstart)

/-! ## Sequences of steps -/

/-- Steps that lose nothing and get no interval. -/
structure Preserves (t t' : State α) : Prop where
  inv : Inv t'
  exact_iff : Exact t' ↔ Exact t
  intervals : t'.intervals = t.intervals
  buffered : t'.buffered = t.buffered

/-- Doing nothing preserves the record. -/
theorem Inv.preserves_self (h : Inv t) : Preserves t t := ⟨h, Iff.rfl, rfl, rfl⟩

theorem Preserves.trans {t' t'' : State α} (h : Preserves t t') (h' : Preserves t' t'') :
    Preserves t t'' :=
  ⟨h'.inv, h'.exact_iff.trans h.exact_iff, h'.intervals.trans h.intervals,
    h'.buffered.trans h.buffered⟩

/-- Writing out and changing the value preserves the record. -/
theorem Inv.preserves_flush_change (h : Inv t) (v : α) : Preserves t (t.flush.change v) :=
  ⟨h.flush.change (Or.inl rfl), exact_change.trans h.exact_flush, rfl, rfl⟩

/-- Steps that get one interval and lose nothing if `keeps` holds. -/
structure Gets (keeps : Prop) (t t' : State α) (i : Interval α) : Prop where
  inv : Inv t'
  intervals : t'.intervals = t.intervals ++ [i]
  exact_of_exact : Exact t' → Exact t
  exact_iff : Exact t → (Exact t' ↔ keeps)

/-- The offsets that are passed get the value at the time. -/
theorem Preserves.gets (h : Preserves t t') (hle : t.buffered ≤ offset) :
    Gets True t (t'.advance offset) ⟨t.buffered, offset, t'.value⟩ where
  inv := h.inv.advance (h.buffered ▸ hle)
  intervals := by rw [State.advance, h.intervals, h.buffered]
  exact_of_exact hexact := h.exact_iff.mp ((exact_advance h.inv.le).mp hexact)
  exact_iff hexact :=
    iff_of_true ((exact_advance h.inv.le).mpr (h.exact_iff.mpr hexact)) trivial

/-! ## Overwriting a pending value -/

/-- Changing the value, advancing and writing out keeps the order of the offsets. -/
theorem Inv.overwrite (h : Inv t) (hle : t.buffered ≤ offset) :
    Inv ((t.change v).advance offset).flush := by
  have hchanged := (h.flush.change (v := v) (Or.inl rfl)).advance hle
  refine ⟨h.nonneg.trans (h.le.trans hle), le_refl _, hchanged.start_nonneg, hchanged.within,
    hchanged.covered, hchanged.ordered, fun i hi o _ hlt hwritten => ?_⟩
  have hwithin : i.stop ≤ offset := hchanged.within i hi
  exact absurd (lt_of_lt_of_le hlt hwithin) (not_lt.mpr hwritten)

/-- **Overwriting** a pending value loses it. -/
theorem Inv.not_exact_overwrite (h : Inv t) (hle : t.buffered ≤ offset)
    (hpending : t.written < t.buffered) (hv : v ≠ t.value) :
    ¬Exact ((t.change v).advance offset).flush := by
  intro hexact
  obtain ⟨i, hi, hstart, hstop⟩ := h.covered t.written h.nonneg hpending
  have hvalue := h.pending i hi t.written hstart hstop (le_refl _)
  have hrecorded := hexact i (mem_append_left _ hi) t.written hstart hstop
    (lt_of_lt_of_le hpending hle)
  have hnew : ((t.change v).advance offset).flush.recorded t.written = v := if_neg (lt_irrefl _)
  exact hv (hnew.symm.trans (hrecorded.trans hvalue))

/-- A value that is overwritten and flushed is lost, unless it is the same or nothing is pending. -/
theorem Preserves.gets_overwrite (h : Preserves t t') (hle : t.buffered ≤ offset) :
    Gets (t'.written = t'.buffered ∨ v = t'.value) t ((t'.change v).advance offset).flush
      ⟨t.buffered, offset, v⟩ := by
  have hle' : t'.buffered ≤ offset := h.buffered ▸ hle
  have hexact : Exact ((t'.change v).advance offset).flush → Exact t' := fun hexact =>
    (exact_advance (t := t'.change v) h.inv.le).mp (hexact.of_flush (h.inv.le.trans hle'))
  refine ⟨h.inv.overwrite hle', ?_, fun hnew => h.exact_iff.mp (hexact hnew),
    fun hold => ⟨fun hnew => ?_, fun hkeeps => ?_⟩⟩
  · rw [State.flush, State.advance, State.change, h.intervals, h.buffered]
  · by_contra hlost
    rw [not_or] at hlost
    exact h.inv.not_exact_overwrite hle' (lt_of_le_of_ne h.inv.le hlost.1) hlost.2 hnew
  · have hchange := h.inv.change hkeeps
    exact (hchange.advance hle').exact_flush.mpr
      ((exact_advance hchange.le).mpr (h.exact_iff.mpr hold))

end DartVm.PendingInterval
