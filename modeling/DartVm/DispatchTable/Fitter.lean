import DartVm.DispatchTable.Rows
import DartVm.Library.Postcondition

/-! # Packing rows

`RowFitter` keeps the free slots of the table as a separated list of intervals.  A row is allocated
at the first offset where all its ranges are in free slots (`fitLoop_spec`), so no two rows claim
the same slot (`allocateRows_spec`).

The last free slot reaches up to `INT_MAX`, so a search ends, and a row fits at the latest where
that slot begins.  `Searchable` keeps this with a bound on that place, the size of the table.  While
it stays well below `INT_MAX` nothing aborts.

* `Packed`: the invariant of packing.
* `tryFit_spec`: a row fits, or the search skips without passing an offset where it does.
* `allocateRows_spec`: one round of allocations. -/

namespace DartVm.DispatchTable

open DartVm.Interval Postcondition List

variable {Fn : Type} {P : Program Fn} {S : Sorters Fn}
variable {slots slots' : List Interval} {range : Interval} {i j offset bound : ℕ}

/-! ## Moving forward -/

variable {slot : Interval} {abort : Prop} {pre post ranges : List Interval}

/-- `MoveForwardToCover` stops at the first slot that does not end before the range. -/
theorem moveForwardFrom_spec {rest : List Interval}
    (habort : ¬ abort → ∃ s ∈ rest, range.end_ ≤ s.end_) :
    Returns abort (moveForwardFrom range rest i) fun j =>
      ∃ pre slot post, rest = pre ++ slot :: post ∧ j = i + pre.length ∧
        (∀ s ∈ pre, s.end_ < range.end_) ∧ range.end_ ≤ slot.end_ := by
  induction rest generalizing i with
  | nil => exact not_not.mp fun h => by simpa using habort h
  | cons slot rest ih =>
    refine returns_ite (fun hlt => ?_) fun hge => ⟨[], slot, rest, rfl, rfl, by simp, by omega⟩
    refine (ih fun h => ?_).mono ?_
    · obtain ⟨s, hs, hend⟩ := habort h
      rcases mem_cons.mp hs with rfl | hs
      · omega
      · exact ⟨s, hs, hend⟩
    · rintro j ⟨pre, slot', post, rfl, rfl, hpre, hslot⟩
      refine ⟨slot :: pre, slot', post, rfl, by simp; omega, ?_, hslot⟩
      simpa [hlt] using hpre

/-- `MoveForwardToCover` stops at the first slot that does not end before the range. -/
theorem moveForwardToCover_spec (habort : ¬ abort → ∃ s ∈ slots.drop i, range.end_ ≤ s.end_) :
    Returns abort (moveForwardToCover slots range i) fun j =>
      ∃ pre slot post, slots = pre ++ slot :: post ∧ j = pre.length ∧ i ≤ j ∧
        (∀ s ∈ pre.drop i, s.end_ < range.end_) ∧ range.end_ ≤ slot.end_ := by
  refine (moveForwardFrom_spec habort).mono ?_
  rintro j ⟨pre, slot, post, hdrop, rfl, hpre, hslot⟩
  have hi : i ≤ slots.length := by
    by_contra hlt
    rw [drop_eq_nil_of_le (by omega)] at hdrop
    simp at hdrop
  have hlen : (slots.take i).length = i := length_take_of_le hi
  refine ⟨slots.take i ++ pre, slot, post, ?_, by simp [hlen], by omega, ?_, hslot⟩
  · rw [append_assoc, ← hdrop, take_append_drop]
  · rwa [drop_left' hlen]

/-! ## Carving a range out of the free slots -/

/-- Inserting behind a given element. -/
theorem insertIdx_length_succ {α : Type*} (pre post : List α) (x y : α) :
    (pre ++ x :: post).insertIdx (pre.length + 1) y = pre ++ x :: y :: post := by
  induction pre with
  | nil => rfl
  | cons z pre ih => simp [ih]

/-- `FitInFreeSlot` takes the range out of the slot, and goes on with what is behind it. -/
theorem fitInFreeSlot_eq (range : Interval)
    (hslots : slots = pre ++ slot :: post) :
    ∃ j, fitInFreeSlot slots range pre.length = some (pre ++ (diff slot range ++ post), j) ∧
      pre.length ≤ j ∧ ∀ s ∈ diff slot range ++ post, range.end_ ≤ s.begin_ →
        s ∈ (pre ++ (diff slot range ++ post)).drop j := by
  have hlt := range.lt
  have hget : slots[pre.length]? = some slot := by simp [hslots]
  simp only [fitInFreeSlot, hget, Option.bind_eq_bind, Option.bind_some]
  by_cases hb : slot.begin_ < range.begin_ <;> by_cases he : range.end_ < slot.end_
  · refine ⟨pre.length, ?_, le_rfl, fun s hs _ => ?_⟩
    · rw [hslots]
      simp [diff, hb, he, insertIdx_length_succ]
    · rwa [drop_left]
  · refine ⟨pre.length + 1, ?_, Nat.le_succ _, fun s hs hend => ?_⟩
    · rw [hslots]
      simp [diff, hb, he]
    -- The slot before the range is the only one that the search leaves behind.
    simp only [diff, dif_pos hb, dif_neg he, append_nil, singleton_append, mem_cons] at hs ⊢
    rcases hs with rfl | hs
    · have : range.end_ ≤ slot.begin_ := hend
      omega
    · simpa [drop_append] using .inr hs
  · refine ⟨pre.length, ?_, le_rfl, fun s hs _ => ?_⟩
    · rw [hslots]
      simp [diff, hb, he]
    · rwa [drop_left]
  · refine ⟨pre.length, ?_, le_rfl, fun s hs _ => ?_⟩
    · rw [hslots]
      simp [diff, hb, he, eraseIdx_append_of_length_le]
    · rwa [drop_left]

/-- The search finds the slot that holds a range, if it does not start behind it. -/
theorem moveForwardToCover_of_within (hsep : Separated slots) (hslot : slot ∈ slots.drop i)
    (hr : range.Within slot) :
    ∃ pre post, slots = pre ++ slot :: post ∧ i ≤ pre.length ∧
      moveForwardToCover slots range i = some pre.length := by
  have hlt := range.lt
  obtain ⟨j, hj, pre, found, post, hslots, rfl, hij, hpre, hfound⟩ :=
    (moveForwardToCover_spec fun _ : ¬ False => ⟨slot, hslot, hr.2⟩).exists_eq_some
  refine ⟨pre, post, ?_, hij, hj⟩
  have hdrop : slots.drop i = pre.drop i ++ found :: post := by
    rw [hslots, drop_append_of_le_length hij]
  rw [hdrop, mem_append, mem_cons] at hslot
  rcases hslot with h | rfl | h
  · exact absurd (hpre slot h) (not_lt.mpr hr.2)
  · exact hslots
  -- A later slot begins behind the one that was found.
  have hafter : found.IsBefore slot := by
    rw [hslots, Separated, pairwise_append, pairwise_cons] at hsep
    exact hsep.2.1.1 slot h
  have := hr.1
  unfold IsBefore at hafter
  omega

/-- When a range has been taken, a later range that had a slot still has one, behind the first
range. -/
theorem ahead_of_within {s later : Interval}
    (hsep : Separated (pre ++ slot :: post)) (hr : range.Within slot) (hl : later.Within s)
    (hbefore : range.end_ ≤ later.begin_) (hs : s ∈ pre ++ slot :: post) :
    ∃ s' ∈ diff slot range ++ post, range.end_ ≤ s'.begin_ ∧ later.Within s' := by
  have hlt := later.lt
  have hrlt := range.lt
  have hb := hr.1
  have he := hr.2
  have hle := hl.2
  unfold Separated at hsep
  rw [pairwise_append, pairwise_cons] at hsep
  obtain ⟨-, ⟨hpost, -⟩, hcross⟩ := hsep
  rw [mem_append, mem_cons] at hs
  rcases hs with hs | rfl | hs
  · have h : s.end_ ≤ slot.begin_ := hcross s hs slot mem_cons_self
    omega
  · -- The later range is in the part of the slot behind the first one.
    have hafter : range.end_ < s.end_ := by omega
    refine ⟨⟨range.end_, s.end_, hafter⟩, mem_append.mpr (.inl (mem_diff.mpr ?_)), le_rfl,
      hbefore, hle⟩
    exact .inr ⟨rfl, rfl⟩
  · have h : slot.end_ ≤ s.begin_ := hpost s hs
    exact ⟨s, mem_append.mpr (.inr hs), by omega, hl⟩

/-! ## The last slot -/

/-- The last slot ends at `INT_MAX` and does not begin behind `bound`. -/
def EndsOpen (slots : List Interval) (bound : ℕ) : Prop :=
  ∃ last, slots.getLast? = some last ∧ last.end_ = intMax ∧ last.begin_ ≤ bound

/-- A higher bound does as well. -/
theorem EndsOpen.mono {bound' : ℕ} (h : EndsOpen slots bound) (hle : bound ≤ bound') :
    EndsOpen slots bound' :=
  let ⟨last, hlast, hend, hbegin⟩ := h
  ⟨last, hlast, hend, hbegin.trans hle⟩

/-- Free slots begin below the last one. -/
theorem begin_le_of_endsOpen (hsep : Separated slots) (h : EndsOpen slots bound)
    (hslot : slot ∈ slots) : slot.begin_ ≤ bound := by
  obtain ⟨last, hlast, -, hbegin⟩ := h
  obtain ⟨pre, rfl⟩ := getLast?_eq_some_iff.mp hlast
  rcases mem_append.mp hslot with hslot | hslot
  · have hbefore : slot.end_ ≤ last.begin_ :=
      (pairwise_append.mp hsep).2.2 slot hslot last (mem_singleton_self _)
    have := slot.lt
    omega
  · rw [mem_singleton.mp hslot]
    exact hbegin

/-- Taking out a range that ends before `bound` and `INT_MAX` leaves the last slot open. -/
theorem EndsOpen.replace
    (h : EndsOpen (pre ++ slot :: post) bound) (hrange : range.end_ ≤ bound)
    (hmax : range.end_ < intMax) : EndsOpen (pre ++ (diff slot range ++ post)) bound := by
  obtain ⟨last, hlast, hend, hbegin⟩ := h
  rcases eq_nil_or_concat post with rfl | ⟨post, last', rfl⟩
  · -- The range comes out of the last slot, and the part behind it stays.
    obtain rfl : slot = last := by simpa using hlast
    have hlt : range.end_ < slot.end_ := hend ▸ hmax
    exact ⟨⟨range.end_, slot.end_, hlt⟩, by simp [diff, hlt], hend, hrange⟩
  · have hback (l : List Interval) : (l ++ post.concat last').getLast? = some last' := by
      rw [concat_eq_append, ← append_assoc, getLast?_concat]
    rw [← singleton_append, ← append_assoc, hback] at hlast
    rw [← append_assoc]
    exact ⟨last, hlast ▸ hback _, hend, hbegin⟩

/-- Some slot from any position on ends behind every range. -/
theorem EndsOpen.exists_mem_drop (h : EndsOpen slots bound) (hi : i < slots.length)
    (hrange : range.end_ ≤ intMax) : ∃ s ∈ slots.drop i, range.end_ ≤ s.end_ := by
  obtain ⟨last, hlast, hend, -⟩ := h
  obtain ⟨pre, rfl⟩ := getLast?_eq_some_iff.mp hlast
  have hle : i ≤ pre.length := by simpa [Nat.lt_succ_iff] using hi
  refine ⟨last, ?_, hrange.trans hend.ge⟩
  rw [drop_append_of_le_length hle]
  simp

/-! ## Taking out a row -/

/-- **`UpdateFreeSlots`** takes all ranges of a row out of the free slots. -/
theorem updateFreeSlots_spec (hsep : Separated slots)
    (hranges : Separated (ranges.map (·.shift offset)))
    (hfit : ∀ r ∈ ranges, ∃ s ∈ slots.drop i, (r.shift offset).Within s) :
    ∃ slots', updateFreeSlots offset ranges i slots = some slots' ∧ Separated slots' ∧
      (∀ x, Covers slots' x ↔ Covers slots x ∧ ¬ Covers (ranges.map (·.shift offset)) x) ∧
      slots'.take i = slots.take i ∧
      ∀ bound < intMax, (∀ r ∈ ranges, r.end_ + offset ≤ bound) → EndsOpen slots bound →
        EndsOpen slots' bound := by
  induction ranges generalizing slots i with
  | nil => exact ⟨slots, rfl, hsep, fun x => by simp [Covers], rfl, fun _ _ _ h => h⟩
  | cons r ranges ih =>
    obtain ⟨hfirst, hrest⟩ := pairwise_cons.mp hranges
    obtain ⟨slot, hslot, hwithin⟩ := hfit r mem_cons_self
    obtain ⟨pre, post, hslots, hi, hmove⟩ := moveForwardToCover_of_within hsep hslot hwithin
    obtain ⟨j, hcarve, hj, hkept⟩ := fitInFreeSlot_eq (r.shift offset) hslots
    have hsep' := separated_replace (hslots ▸ hsep) hwithin
    -- The other ranges are still in slots ahead.
    have hfit' : ∀ r' ∈ ranges, ∃ s ∈ (pre ++ (diff slot (r.shift offset) ++ post)).drop j,
        (r'.shift offset).Within s := by
      intro r' hr'
      have hbefore : (r.shift offset).end_ ≤ (r'.shift offset).begin_ :=
        hfirst _ (mem_map_of_mem hr')
      obtain ⟨s, hs, hwithin'⟩ := hfit r' (mem_cons_of_mem r hr')
      obtain ⟨s', hs', hend, hw⟩ := ahead_of_within (hslots ▸ hsep) hwithin hwithin' hbefore
        (hslots ▸ mem_of_mem_drop hs)
      exact ⟨s', hkept s' hs' hend, hw⟩
    obtain ⟨slots', hupdate, hsep'', hcov, htake, hopen⟩ := ih hsep' hrest hfit'
    refine ⟨slots', ?_, hsep'', fun x => ?_, ?_, fun bound hmax hranges h => ?_⟩
    · simp only [updateFreeSlots, hmove, hcarve, Option.bind_eq_bind, Option.bind_some, hupdate]
    · rw [hcov, covers_replace (hslots ▸ hsep) hwithin, ← hslots, map_cons, covers_cons]
      tauto
    · have hle : i ≤ j := hi.trans hj
      have h := congrArg (take i) htake
      rw [take_take, take_take, min_eq_left hle] at h
      rw [h, hslots, take_append_of_le_length hi, take_append_of_le_length hi]
    · obtain ⟨hr, hranges⟩ := forall_mem_cons.mp hranges
      exact hopen bound hmax hranges ((hslots ▸ h).replace hr (lt_of_le_of_lt hr hmax))

/-! ## Fitting a row -/

/-- All ranges are in free slots when they are moved up by `offset`. -/
def Fits (slots ranges : List Interval) (offset : ℕ) : Prop :=
  ∀ r ∈ ranges, ∃ s ∈ slots, (r.shift offset).Within s

/-- The last slot is open, and nothing that `TryFit` adds is beyond `INT_MAX`. -/
structure InBounds (slots ranges : List Interval) (offset bound : ℕ) : Prop where
  endsOpen : EndsOpen slots bound
  end_le : ∀ r ∈ ranges, r.end_ + offset ≤ intMax
  sum_le : bound + bound ≤ intMax

/-- The loop of `TryFit` finds a slot for every range, or the next offset. The slots it has passed
end too early for the ranges that are left, so no offset in between fits. -/
theorem tryFitRanges_spec (hsep : Separated slots)
    (hranges : Separated ranges)
    (hpassed : ∀ r ∈ ranges, ∀ s ∈ slots.take i, s.end_ < r.end_ + offset)
    (habort : ¬ abort → InBounds slots ranges offset bound ∧ i < slots.length) :
    Returns abort (tryFitRanges slots offset ranges i) fun conflict =>
      (conflict = none ∧ ∀ r ∈ ranges, ∃ s ∈ slots.drop i, (r.shift offset).Within s) ∨
      ∃ next, conflict = some next ∧ offset < next ∧ (∃ s ∈ slots, next ≤ s.begin_) ∧
        ∀ o, offset ≤ o → o < next → ¬ Fits slots ranges o := by
  induction ranges generalizing i with
  | nil => exact .inl ⟨rfl, by simp⟩
  | cons r ranges ih =>
    obtain ⟨hbefore, hrest⟩ := pairwise_cons.mp hranges
    have hmove : ¬ abort → ∃ s ∈ slots.drop i, (r.shift offset).end_ ≤ s.end_ := fun h =>
      (habort h).1.endsOpen.exists_mem_drop (habort h).2 ((habort h).1.end_le r mem_cons_self)
    refine (moveForwardToCover_spec hmove).bind ?_
    rintro j ⟨pre, found, post, hslots, rfl, hij, hpre, hend⟩
    refine returns_bind_of_eq (by simp [hslots] : slots[pre.length]? = some found) ?_
    have hpassed' : ∀ s ∈ pre, s.end_ < r.end_ + offset := by
      intro s hs
      rw [← take_append_drop i pre, mem_append] at hs
      rcases hs with hs | hs
      · refine hpassed r mem_cons_self s ?_
        rwa [hslots, take_append_of_le_length hij]
      · exact hpre s hs
    refine returns_ite (fun hconflict => ?_) fun hfits => ?_
    · rw [begin_shift] at hconflict ⊢
      have hint : Returns abort (int32 (offset + found.begin_)) (· = offset + found.begin_) := by
        refine returns_ite (fun _ => rfl) fun hlarge => not_not.mp fun h => hlarge ?_
        have := begin_le_of_endsOpen hsep (habort h).1.endsOpen
          (show found ∈ slots by simp [hslots])
        have := (habort h).1.sum_le
        omega
      refine hint.bind ?_
      rintro _ rfl
      refine .inr ⟨_, rfl, by omega, ⟨found, by simp [hslots], by omega⟩, fun o hge hlt hfits => ?_⟩
      -- A slot that holds the range would have to lie behind those passed and before this one.
      obtain ⟨s, hs, hbegin, hend'⟩ := hfits r mem_cons_self
      rw [begin_shift] at hbegin
      rw [end_shift] at hend'
      rw [hslots, mem_append, mem_cons] at hs
      rcases hs with hs | rfl | hs
      · have := hpassed' s hs
        omega
      · omega
      · have hafter : found.end_ ≤ s.begin_ := by
          rw [hslots, Separated, pairwise_append, pairwise_cons] at hsep
          exact hsep.2.1.1 s hs
        have := found.lt
        omega
    · rw [not_lt] at hfits
      have hlater : ∀ r' ∈ ranges, ∀ s ∈ slots.take pre.length, s.end_ < r'.end_ + offset := by
        intro r' hr' s hs
        rw [hslots, take_left] at hs
        have h1 := hpassed' s hs
        have h2 : r.end_ ≤ r'.begin_ := hbefore r' hr'
        have := r'.lt
        omega
      refine (ih hrest hlater fun h => ⟨⟨(habort h).1.endsOpen,
        fun r' hr' => (habort h).1.end_le r' (mem_cons_of_mem _ hr'), (habort h).1.sum_le⟩,
        by simp [hslots]⟩).mono ?_
      rintro conflict (⟨rfl, hwithin⟩ | ⟨next, rfl, hlt, hle, hmin⟩)
      · refine .inl ⟨rfl, forall_mem_cons.mpr ⟨⟨found, ?_, hfits, hend⟩, fun r' hr' => ?_⟩⟩
        · rw [hslots, drop_append_of_le_length hij]
          simp
        · obtain ⟨s, hs, hw⟩ := hwithin r' hr'
          exact ⟨s, drop_subset_drop_left slots hij hs, hw⟩
      · exact .inr ⟨next, rfl, hlt, hle, fun o hge hlt hfits =>
          hmin o hge hlt fun r' hr' => hfits r' (mem_cons_of_mem _ hr')⟩

/-- The slots that a row takes when it is allocated at `offset`. -/
def SelectorRow.ClaimsAt (row : SelectorRow Fn) (offset x : ℕ) : Prop :=
  Covers (row.ranges.map (·.shift offset)) x

/-- The slots that a row has been given. -/
def SelectorRow.Claims (row : SelectorRow Fn) (x : ℕ) : Prop :=
  ∃ offset, row.offset = some offset ∧ row.ClaimsAt offset x

variable {fitter fitter' : RowFitter} {row : SelectorRow Fn}

/-- What a row would occupy is free. -/
theorem Fits.covers (h : Fits slots row.ranges offset) {x : ℕ} (hx : row.ClaimsAt offset x) :
    Covers slots x := by
  obtain ⟨_, hI, hx⟩ := hx
  obtain ⟨r, hr, rfl⟩ := mem_map.mp hI
  obtain ⟨s, hs, hwithin⟩ := h r hr
  exact ⟨s, hs, hwithin.mem hx⟩

/-- The slots before the start of the search end too early, whatever index is cached. -/
theorem startIndex_spec (hsep : Separated fitter.freeSlots)
    (habort : ¬ abort → fitter.firstSlotIndex < fitter.freeSlots.length) :
    Returns abort (fitter.startIndex range) fun start =>
      start ≤ fitter.firstSlotIndex ∧ ∀ s ∈ fitter.freeSlots.take start, s.end_ < range.end_ := by
  refine returns_ite (fun hpos => ?_) fun hzero => ?_
  · obtain ⟨k, hk⟩ := Nat.exists_eq_succ_of_ne_zero hpos.ne'
    have hget : Returns abort fitter.freeSlots[fitter.firstSlotIndex - 1]? fun slot =>
        fitter.freeSlots[k]? = some slot := by
      rw [hk, Nat.succ_eq_add_one, Nat.add_sub_cancel]
      cases hslot : fitter.freeSlots[k]? with
      | none =>
        have := getElem?_eq_none_iff.mp hslot
        exact not_not.mp fun h => by have := habort h; omega
      | some slot => rfl
    refine hget.bind fun slot hslot => ?_
    by_cases hle : range.end_ ≤ slot.end_
    · rw [if_pos hle]
      exact ⟨Nat.zero_le _, by simp⟩
    rw [if_neg hle]
    refine ⟨le_rfl, fun s hs => ?_⟩
    rw [hk, take_add_one, hslot, mem_append] at hs
    rcases hs with hs | hs
    · have hmem : slot ∈ fitter.freeSlots.drop k := by
        rw [mem_iff_getElem?]
        exact ⟨0, by simpa using hslot⟩
      rw [← take_append_drop k fitter.freeSlots] at hsep
      have hbefore : s.end_ ≤ slot.begin_ := (pairwise_append.mp hsep).2.2 s hs slot hmem
      have := slot.lt
      omega
    · obtain rfl : s = slot := by simpa using hs
      omega
  · refine ⟨le_rfl, ?_⟩
    rw [show fitter.firstSlotIndex = 0 by omega]
    simp

/-- **What the fitter needs**: separated slots, the last one open and beginning at `bound` at the
latest, and a cached index in bounds. -/
structure Ready (fitter : RowFitter) (bound : ℕ) : Prop where
  separated : Separated fitter.freeSlots
  endsOpen : EndsOpen fitter.freeSlots bound
  index_lt : fitter.firstSlotIndex < fitter.freeSlots.length

/-- The slots before the cached index are not touched, so there are slots behind it. -/
theorem index_lt_of_take_eq (hsep : Separated slots)
    (hopen : EndsOpen slots bound) (hopen' : EndsOpen slots' bound) (hi : i < slots.length)
    (htake : slots'.take i = slots.take i) : i < slots'.length := by
  by_contra hle
  obtain ⟨last, hlast, hend, -⟩ := hopen
  obtain ⟨last', hlast', hend', -⟩ := hopen'
  obtain ⟨pre, rfl⟩ := getLast?_eq_some_iff.mp hlast
  -- Otherwise the last slot would have been in front of the open one.
  have hmem : last' ∈ (pre ++ [last]).take i := by
    rw [← htake, take_of_length_le (not_lt.mp hle)]
    exact mem_of_getLast? hlast'
  have hpre : last' ∈ pre := by
    rw [take_append_of_le_length (by simpa [Nat.lt_succ_iff] using hi)] at hmem
    exact mem_of_mem_take hmem
  have hbefore : last'.end_ ≤ last.begin_ :=
    (pairwise_append.mp hsep).2.2 last' hpre last (mem_singleton_self _)
  have := last.lt
  omega

/-- The fitter after a row has been given its slots at `offset`. -/
structure Allotted (fitter : RowFitter) (row : SelectorRow Fn) (offset : ℕ) (fitter' : RowFitter) :
    Prop where
  fits : Fits fitter.freeSlots row.ranges offset
  separated : Separated fitter'.freeSlots
  covers (x : ℕ) :
    Covers fitter'.freeSlots x ↔ Covers fitter.freeSlots x ∧ ¬ row.ClaimsAt offset x
  ready (bound : ℕ) : bound < intMax → (∀ r ∈ row.ranges, r.end_ + offset ≤ bound) →
    EndsOpen fitter.freeSlots bound → Ready fitter' bound

/-- **What `FitAndAllocate` needs** for a row at offsets up to `top`. -/
structure Searchable (fitter : RowFitter) (row : SelectorRow Fn) (bound top : ℕ) : Prop where
  inBounds : InBounds fitter.freeSlots row.ranges top bound
  index_lt : fitter.firstSlotIndex < fitter.freeSlots.length
  ranges_ne : row.ranges ≠ []
  bound_le : bound ≤ top

variable {top : ℕ}

/-- The search has a place to end. -/
theorem Searchable.fits (h : Searchable fitter row bound top) :
    Fits fitter.freeSlots row.ranges top := by
  obtain ⟨last, hlast, hopen, hbegin⟩ := h.inBounds.endsOpen
  have hle := h.bound_le
  intro r hr
  have := h.inBounds.end_le r hr
  refine ⟨last, mem_of_getLast? hlast, ?_, ?_⟩
  · rw [begin_shift]
    omega
  · rw [end_shift]
    omega

/-- **`TryFit`** finds that the row fits, or skips to a greater offset without passing one that
fits. -/
theorem tryFit_spec (hsep : Separated fitter.freeSlots) (hrow : Separated row.ranges)
    (habort : ¬ abort → Searchable fitter row bound top ∧ offset ≤ top) :
    Returns abort (fitter.tryFit row offset) fun (fitter', next) =>
      (∃ o, next = some o ∧ fitter'.freeSlots = fitter.freeSlots ∧
        fitter'.firstSlotIndex < fitter.freeSlots.length ∧ offset < o ∧
        (∃ s ∈ fitter.freeSlots, o ≤ s.begin_) ∧
        ∀ o', offset ≤ o' → o' < o → ¬ Fits fitter.freeSlots row.ranges o') ∨
      (next = none ∧ Allotted fitter row offset fitter') := by
  have hhead : Returns abort row.ranges.head? fun first => ∃ rest, row.ranges = first :: rest := by
    cases hranges : row.ranges with
    | nil => exact not_not.mp fun h => (habort h).1.ranges_ne hranges
    | cons first rest => exact ⟨rest, rfl⟩
  refine hhead.bind ?_
  rintro first ⟨rest, hranges⟩
  have hmem : first ∈ row.ranges := by simp [hranges]
  have hbounds : ¬ abort → InBounds fitter.freeSlots row.ranges offset bound := fun h => by
    obtain ⟨⟨⟨hopen, hends, hsum⟩, -⟩, hle⟩ := habort h
    exact ⟨hopen, fun r hr => (Nat.add_le_add_left hle _).trans (hends r hr), hsum⟩
  refine (startIndex_spec hsep fun h => (habort h).1.index_lt).bind ?_
  rintro start ⟨hstart, hskipped⟩
  have hmove : ¬ abort → ∃ s ∈ fitter.freeSlots.drop start, (first.shift offset).end_ ≤ s.end_ :=
    fun h => (hbounds h).endsOpen.exists_mem_drop (hstart.trans_lt (habort h).1.index_lt)
      ((hbounds h).end_le first hmem)
  refine (moveForwardToCover_spec hmove).bind ?_
  rintro i ⟨pre, found, post, hslots, rfl, hij, hpre, -⟩
  have hlength : pre.length < fitter.freeSlots.length := by simp [hslots]
  -- The slots before the first one that is looked at end too early for all ranges.
  have hpassed : ∀ r ∈ row.ranges, ∀ s ∈ fitter.freeSlots.take pre.length,
      s.end_ < r.end_ + offset := by
    intro r hr s hs
    have hle : first.end_ ≤ r.end_ := by
      rw [hranges] at hr hrow
      rcases mem_cons.mp hr with rfl | hr
      · exact le_rfl
      · have hbefore : first.end_ ≤ r.begin_ := (pairwise_cons.mp hrow).1 r hr
        exact hbefore.trans r.lt.le
    rw [hslots, take_left, ← take_append_drop start pre, mem_append] at hs
    have hend : s.end_ < first.end_ + offset := by
      rcases hs with hs | hs
      · refine hskipped s ?_
        rwa [hslots, take_append_of_le_length hij]
      · exact hpre s hs
    omega
  refine (tryFitRanges_spec hsep hrow hpassed fun h => ⟨hbounds h, hlength⟩).bind ?_
  rintro conflict (⟨rfl, hfit⟩ | ⟨o, rfl, hspec⟩)
  · obtain ⟨slots', hupdate, hsep', hcov, htake, hopen⟩ :=
      updateFreeSlots_spec hsep (hrow.map_shift offset) hfit
    refine returns_bind_of_eq hupdate
      (.inr ⟨rfl, fun r hr => ?_, hsep', hcov, fun bound hbound hends h => ?_⟩)
    · obtain ⟨s, hs, hwithin⟩ := hfit r hr
      exact ⟨s, mem_of_mem_drop hs, hwithin⟩
    · have h' := hopen bound hbound hends h
      exact ⟨hsep', h', index_lt_of_take_eq hsep h h' hlength htake⟩
  · exact .inl ⟨o, rfl, rfl, hlength, hspec⟩

variable {maxOffset : ℕ}

/-- The loop of `FitAndAllocate` changes nothing where no offset fits, or takes free slots at the
first offset that fits. It ends, since the row fits at `top`. -/
theorem fitLoop_spec {fuel : ℕ} (hsep : Separated fitter.freeSlots) (hrow : Separated row.ranges)
    (habort : ¬ abort → Searchable fitter row bound top ∧ offset ≤ top ∧ top - offset < fuel) :
    Returns abort (fitLoop row maxOffset fuel fitter offset) fun (fitter', result) =>
      (result = none ∧ fitter'.freeSlots = fitter.freeSlots ∧
        (fitter.firstSlotIndex < fitter.freeSlots.length →
          fitter'.firstSlotIndex < fitter.freeSlots.length) ∧
        ∀ o, offset ≤ o → o ≤ maxOffset → ¬ Fits fitter.freeSlots row.ranges o) ∨
      ∃ o, result = some o ∧ offset ≤ o ∧ o ≤ maxOffset ∧ Allotted fitter row o fitter' ∧
        ∀ o', offset ≤ o' → o' < o → ¬ Fits fitter.freeSlots row.ranges o' := by
  induction fuel generalizing fitter offset with
  | zero => exact not_not.mp fun h => by have := (habort h).2; omega
  | succ fuel ih =>
    refine returns_ite (fun hmax => ?_) fun hmax => .inl ⟨rfl, rfl, id, fun o hge hle => by omega⟩
    refine (tryFit_spec hsep hrow fun h => ⟨(habort h).1, (habort h).2.1⟩).bind ?_
    rintro ⟨fitter₁, next⟩
      (⟨next, rfl, hslots, hlength, hlt, ⟨s, hs, hle⟩, hskip⟩ | ⟨rfl, hallotted⟩)
    · -- No offset before the next one fits.
      have hnot : ∀ o, offset ≤ o → (next ≤ o → ¬ Fits fitter.freeSlots row.ranges o) →
          ¬ Fits fitter.freeSlots row.ranges o := fun o hge hnext =>
        (lt_or_ge o next).elim (hskip o hge) hnext
      have hagain : ¬ abort → Searchable fitter₁ row bound top ∧ next ≤ top ∧ top - next < fuel :=
        fun h => by
          obtain ⟨⟨hbounds, -, hne, hbound⟩, -, hfuel⟩ := habort h
          have := begin_le_of_endsOpen hsep hbounds.endsOpen hs
          exact ⟨⟨hslots ▸ hbounds, hslots ▸ hlength, hne, hbound⟩, by omega, by omega⟩
      refine (ih (hslots ▸ hsep) hagain).mono ?_
      rintro ⟨fitter', result⟩
        (⟨hnone, hsame, hindex, hall⟩ | ⟨o, hsome, hge, hle, hallotted, hfirst⟩)
      · rw [hslots] at hsame hindex hall
        exact .inl ⟨hnone, hsame, fun _ => hindex hlength,
          fun o hge hle => hnot o hge fun hnext => hall o hnext hle⟩
      · obtain ⟨hfits, hsep', hcovers, hready⟩ := hallotted
        rw [hslots] at hfits hcovers hready hfirst
        exact .inr ⟨o, hsome, by omega, hle, ⟨hfits, hsep', hcovers, hready⟩,
          fun o' hge' hlt' => hnot o' hge' fun hnext => hfirst o' hnext hlt'⟩
    · exact .inr ⟨offset, rfl, le_rfl, hmax, hallotted, fun o hge hlt => by omega⟩

/-- The row is the same but for its offset. -/
def SameRow (row row' : SelectorRow Fn) : Prop := ∃ offset, row' = { row with offset := offset }

/-- The number of rows without an offset. -/
def pending (rows : List (SelectorRow Fn)) : ℕ := rows.countP (·.offset.isNone)

/-- Rows without a place are counted one by one. -/
theorem pending_cons (row : SelectorRow Fn) (rows : List (SelectorRow Fn)) :
    pending (row :: rows) = pending [row] + pending rows := by
  simp [pending, countP_cons, Nat.add_comm]

/-- **What a round needs**: every row without an offset moves the bound by at most `n`, well below
`INT_MAX`. -/
structure Affords (fitter : RowFitter) (rows : List (SelectorRow Fn))
    (minOffset bound n total : ℕ) :
    Prop where
  ready : Ready fitter bound
  ranges : ∀ row ∈ rows, row.ranges ≠ [] ∧ ∀ r ∈ row.ranges, r.end_ ≤ n
  min_le : minOffset ≤ bound
  budget : bound + pending rows * n ≤ total
  small : total + total + n < intMax

variable {minOffset n total : ℕ}

/-- `FitAndAllocate` changes nothing but the offset, and takes only free slots. -/
theorem fitAndAllocate_spec (hsep : Separated fitter.freeSlots) (hrow : Separated row.ranges)
    (hclaims : ∀ x, row.Claims x → ¬ Covers fitter.freeSlots x)
    (habort : ¬ abort → Affords fitter [row] minOffset bound n total) :
    Returns abort (fitter.fitAndAllocate minOffset maxOffset row) fun (fitter', row') =>
      SameRow row row' ∧ Separated fitter'.freeSlots ∧
      (∀ x, row'.Claims x → row.Claims x ∨ Covers fitter.freeSlots x) ∧
      (∀ x, Covers fitter'.freeSlots x → Covers fitter.freeSlots x ∧ ¬ row'.Claims x) ∧
      (¬ abort → ∃ bound', Ready fitter' bound' ∧ bound ≤ bound' ∧
        bound' + pending [row'] * n ≤ bound + pending [row] * n ∧
        (bound ≤ maxOffset → row'.offset ≠ none)) := by
  unfold RowFitter.fitAndAllocate
  split
  · next o hoffset =>
    exact ⟨⟨row.offset, rfl⟩, hsep, fun x hx => .inl hx,
      fun x hx => ⟨hx, fun hc => hclaims x hc hx⟩,
      fun h => ⟨bound, (habort h).ready, le_rfl, le_rfl, by simp [hoffset]⟩⟩
  · next hoffset =>
    -- The row fits at `bound` at the latest, so the search does not run out.
    have hsearch (h : ¬ abort) : Searchable fitter row bound bound ∧ minOffset ≤ bound ∧
        bound - minOffset < intMax + 1 := by
      obtain ⟨hready, hranges, hmin, hbudget, hsmall⟩ := habort h
      obtain ⟨hne, hends⟩ := hranges row mem_cons_self
      refine ⟨⟨⟨hready.endsOpen, fun r hr => ?_, by omega⟩, hready.index_lt, hne, le_rfl⟩, hmin,
        by omega⟩
      have := hends r hr
      omega
    refine (fitLoop_spec hsep hrow hsearch).bind ?_
    rintro ⟨fitter', result⟩ (⟨rfl, hslots, hindex, hnot⟩ | ⟨o, rfl, -, -, hallotted, hfirst⟩)
    -- No offset up to `maxOffset` fits: the free slots stay as they are.
    · refine ⟨⟨none, rfl⟩, hslots ▸ hsep, fun x => ?_, fun x hx => ⟨hslots ▸ hx, ?_⟩,
        fun h => ⟨bound, ?_, le_rfl, by simp [pending, hoffset], fun hle => ?_⟩⟩
      · rintro ⟨_, ⟨⟩, -⟩
      · rintro ⟨_, ⟨⟩, -⟩
      · have hready := (habort h).ready
        exact ⟨hslots ▸ hsep, hslots ▸ hready.endsOpen, hslots ▸ hindex hready.index_lt⟩
      · exact absurd (hsearch h).1.fits (hnot bound (hsearch h).2.1 hle)
    · refine ⟨⟨some o, rfl⟩, hallotted.separated, fun x => ?_,
        fun x hx => ⟨((hallotted.covers x).mp hx).1, ?_⟩, fun h => ⟨bound + n, ?_,
          Nat.le_add_right _ _, by simp [pending, hoffset], by simp⟩⟩
      · rintro ⟨_, ⟨⟩, hx⟩
        exact .inr (hallotted.fits.covers hx)
      · rintro ⟨_, ⟨⟩, hc⟩
        exact ((hallotted.covers x).mp hx).2 hc
      · obtain ⟨hready, hranges, hmin, hbudget, hsmall⟩ := habort h
        have hle : o ≤ bound :=
          Nat.le_of_not_lt fun hlt => hfirst bound hmin hlt (hsearch h).1.fits
        refine hallotted.ready _ (by omega) (fun r hr => ?_) ?_
        · have := (hranges row mem_cons_self).2 r hr
          omega
        · exact hready.endsOpen.mono (Nat.le_add_right _ _)

/-! ## Fitting all rows -/

/-- Two rows have no slot in common. -/
def NoSharedSlot (row row' : SelectorRow Fn) : Prop := ∀ x, ¬ (row.Claims x ∧ row'.Claims x)

theorem NoSharedSlot.symm {row' : SelectorRow Fn} (h : NoSharedSlot row row') :
    NoSharedSlot row' row := fun x hx => h x hx.symm

/-- **Packing invariant**: the free slots are separated, and no two rows, nor a row and a free slot,
overlap. -/
structure Packed (fitter : RowFitter) (rows : List (SelectorRow Fn)) : Prop where
  separated : Separated fitter.freeSlots
  ranges : ∀ row ∈ rows, Separated row.ranges
  taken : ∀ row ∈ rows, ∀ x, row.Claims x → ¬ Covers fitter.freeSlots x
  disjoint : rows.Pairwise NoSharedSlot

theorem Packed.perm {rows rows' : List (SelectorRow Fn)} (h : Packed fitter rows)
    (hperm : rows'.Perm rows) : Packed fitter rows' where
  separated := h.separated
  ranges row hrow := h.ranges row (hperm.mem_iff.mp hrow)
  taken row hrow := h.taken row (hperm.mem_iff.mp hrow)
  disjoint := (hperm.pairwise_iff NoSharedSlot.symm).mpr h.disjoint

/-- **One round of allocations** keeps the invariant; what is claimed was claimed or free before. It
completes if the rows can be afforded. -/
theorem allocateRows_spec {rows : List (SelectorRow Fn)} (hpacked : Packed fitter rows)
    (habort : ¬ abort → Affords fitter rows minOffset bound n total) :
    Returns abort (allocateRows minOffset maxOffset rows fitter) fun (rows', fitter') =>
      Packed fitter' rows' ∧ List.Forall₂ SameRow rows rows' ∧
      (∀ row' ∈ rows', ∀ x, row'.Claims x →
        (∃ row ∈ rows, row.Claims x) ∨ Covers fitter.freeSlots x) ∧
      (∀ x, Covers fitter'.freeSlots x → Covers fitter.freeSlots x) ∧
      (¬ abort → ∃ bound', Ready fitter' bound' ∧ bound ≤ bound' ∧
        bound' + pending rows' * n ≤ bound + pending rows * n ∧
        (total ≤ maxOffset → ∀ row' ∈ rows', row'.offset ≠ none)) := by
  induction rows generalizing fitter bound with
  | nil =>
    exact ⟨hpacked, .nil, by simp, fun _ hx => hx,
      fun h => ⟨bound, (habort h).ready, le_rfl, le_rfl, by simp⟩⟩
  | cons row rows ih =>
    have hfirst (h : ¬ abort) : Affords fitter [row] minOffset bound n total := by
      obtain ⟨hready, hranges, hmin, hbudget, hsmall⟩ := habort h
      rw [pending_cons, Nat.add_mul] at hbudget
      exact ⟨hready, by simpa using hranges row mem_cons_self, hmin, by omega, hsmall⟩
    refine (fitAndAllocate_spec hpacked.separated (hpacked.ranges row mem_cons_self)
      (hpacked.taken row mem_cons_self) hfirst).bind ?_
    rintro ⟨fitter₁, row₁⟩ ⟨hsame, hsep1, hnew, hfree1, hready1⟩
    obtain ⟨hhead, htail⟩ := pairwise_cons.mp hpacked.disjoint
    have hpacked1 : Packed fitter₁ rows := ⟨hsep1,
      fun r hr => hpacked.ranges r (mem_cons_of_mem _ hr),
      fun r hr x hc hx => hpacked.taken r (mem_cons_of_mem _ hr) x hc (hfree1 x hx).1, htail⟩
    obtain ⟨bound₁, hready1⟩ := exists_of_not_abort hready1
    have hrest (h : ¬ abort) : Affords fitter₁ rows minOffset bound₁ n total := by
      obtain ⟨-, hranges, hmin, hbudget, hsmall⟩ := habort h
      obtain ⟨hready, hle, hpay, -⟩ := hready1 h
      rw [pending_cons, Nat.add_mul] at hbudget
      exact ⟨hready, fun r hr => hranges r (mem_cons_of_mem _ hr), hmin.trans hle, by omega, hsmall⟩
    refine (ih hpacked1 hrest).bind ?_
    rintro ⟨rows₁, fitter₂⟩ ⟨hpacked2, hsames, hnews, hfree2, hready2⟩
    -- The row shares no slot with the others before the round, and takes only free ones.
    have hold : ∀ r ∈ rows, NoSharedSlot row₁ r := by
      rintro r hr x ⟨hx1, hxr⟩
      rcases hnew x hx1 with hx | hx
      · exact hhead r hr x ⟨hx, hxr⟩
      · exact hpacked.taken r (mem_cons_of_mem _ hr) x hxr hx
    refine ⟨⟨hpacked2.separated, ?_, ?_, ?_⟩, .cons hsame hsames, ?_, ?_, fun h => ?_⟩
    · intro r hr
      rcases mem_cons.mp hr with rfl | hr
      · obtain ⟨_, rfl⟩ := hsame
        exact hpacked.ranges row mem_cons_self
      · exact hpacked2.ranges r hr
    · intro r hr x hc hx
      rcases mem_cons.mp hr with rfl | hr
      · exact (hfree1 x (hfree2 x hx)).2 hc
      · exact hpacked2.taken r hr x hc hx
    · refine pairwise_cons.mpr ⟨?_, hpacked2.disjoint⟩
      rintro r hr x ⟨hx1, hxr⟩
      rcases hnews r hr x hxr with ⟨r', hr', hx⟩ | hx
      · exact hold r' hr' x ⟨hx1, hx⟩
      · exact (hfree1 x hx).2 hx1
    · intro r hr x hx
      rcases mem_cons.mp hr with rfl | hr
      · exact (hnew x hx).imp_left fun hc => ⟨row, mem_cons_self, hc⟩
      · rcases hnews r hr x hx with ⟨r', hr', hc⟩ | hx
        · exact .inl ⟨r', mem_cons_of_mem _ hr', hc⟩
        · exact .inr (hfree1 x hx).1
    · exact fun x hx => (hfree1 x (hfree2 x hx)).1
    · obtain ⟨-, hle1, hpay1, halloc⟩ := hready1 h
      obtain ⟨bound₂, hready2, hle2, hpay2, hallocs⟩ := hready2 h
      have hbudget := (habort h).budget
      refine ⟨bound₂, hready2, hle1.trans hle2, ?_, fun htotal => ?_⟩
      · rw [pending_cons, pending_cons row rows, Nat.add_mul, Nat.add_mul]
        omega
      · exact forall_mem_cons.mpr ⟨halloc (by omega), hallocs htotal⟩

end DartVm.DispatchTable
