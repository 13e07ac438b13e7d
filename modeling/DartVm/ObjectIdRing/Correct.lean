import DartVm.Library.CounterWindow
import DartVm.ObjectIdRing.Ring

/-! # Correctness of the ring of object ids

The allocations are numbered from `0`; the id of an allocation is its number modulo `max_serial_`,
and its slot its number modulo the capacity.  The valid ids are those of the window of the last
`capacity` numbers, however often the serial number has wrapped.

* `Represents`: the invariant of the ring.
* `Represents.step`, `Represents.run`: one operation, and any sequence of them, keeps it.
* `run_correct`: which ids are expired, and what the others resolve to. -/

namespace DartVm.ObjectIdRing

open CounterWindow List Nat

variable {O : Type} {ring : Ring O} {c M n : ℕ}

/-! ## Serial numbers -/

/-- The capacity divides the number of serial numbers. -/
structure Sizes (c M : ℕ) : Prop where
  pos : 0 < c
  le : c ≤ M
  dvd : c ∣ M

/-- There are serial numbers. -/
theorem Sizes.maxSerial_pos (hs : Sizes c M) : 0 < M := lt_of_lt_of_le hs.pos hs.le

/-- The ring after `n` allocations. `wrapped_` may be set although the valid serial numbers are
contiguous. -/
structure Counts (ring : Ring O) (c M n : ℕ) : Prop where
  capacity : ring.capacity = c
  maxSerial : ring.maxSerial = M
  serialNum : ring.serialNum = (n % M : ℕ)
  wrapped : ring.wrapped = true → M ≤ n
  contiguous : ring.wrapped = false → n < M ∨ c ≤ n % M

/-- The ring between two calls: `wrapped_` is set only if the valid serial numbers are in two
intervals. -/
structure Settled (ring : Ring O) (c M n : ℕ) : Prop extends Counts ring c M n where
  split : ring.wrapped = true → n % M < c

/-- Serial numbers are not the invalid id. -/
theorem natCast_ne_kInvalidId (i : ℕ) : (i : ℤ) ≠ kInvalidId := by
  unfold kInvalidId
  omega

/-- Before the first wrap, the valid ids are the last `c` serial numbers. -/
theorem isValidContiguous_iff (h : Counts ring c M n) (i : ℕ) :
    isValidContiguous ring i ↔ i < n % M ∧ n % M ≤ i + c := by
  simp only [isValidContiguous, h.serialNum, h.capacity]
  split
  · simp only [Bool.false_eq_true, false_iff]
    omega
  · simp only [decide_eq_true_eq]
    split <;> omega

variable {i : ℕ}

/-- Serial numbers pass the range checks of `IsValidId`. -/
theorem not_outOfRange (h : Counts ring c M n) (hi : i < M) :
    (i : ℤ) ≠ kInvalidId ∧ ¬(i : ℤ) < 0 ∧ ¬(i : ℤ) ≥ ring.maxSerial := by
  rw [h.maxSerial]
  exact ⟨natCast_ne_kInvalidId i, by omega, by omega⟩

/-- **The valid ids** are the serial numbers of the window. -/
theorem isValidId_natCast_iff (hs : Sizes c M) (h : Counts ring c M n) (hi : i < M) :
    (isValidId ring i).1 ↔ ∃ k, InWindow c n k ∧ k % M = i := by
  obtain ⟨hne, hnonneg, hlt⟩ := not_outOfRange h hi
  rw [isValidId, if_neg hne, if_neg hnonneg, if_neg hlt]
  cases hw : ring.wrapped with
  | false =>
    rw [if_neg (by simp), isValidContiguous_iff h,
      exists_inWindow_mod_eq_iff_of_contiguous hi (h.contiguous hw)]
  | true =>
    rw [if_pos rfl]
    by_cases hge : ring.serialNum ≥ ring.capacity
    · have hge' : c ≤ n % M := by rw [h.serialNum, h.capacity] at hge; omega
      rw [if_pos hge, isValidContiguous_iff h,
        exists_inWindow_mod_eq_iff_of_contiguous hi (.inr hge')]
    have hsplit : n % M < c := by rw [h.serialNum, h.capacity] at hge; omega
    rw [if_neg hge, exists_inWindow_mod_eq_iff_of_wrapped hi hs.le (h.wrapped hw) hsplit]
    simp only [h.serialNum, h.capacity, h.maxSerial]
    split
    · simp only [true_iff]
      omega
    · simp only [Bool.and_eq_true, decide_eq_true_eq]
      omega

/-- **Valid ids** are those of the last `capacity` allocations. -/
theorem isValidId_iff (hs : Sizes c M) (h : Counts ring c M n) (id : ℤ) :
    (isValidId ring id).1 ↔ ∃ k, InWindow c n k ∧ id = (k % M : ℕ) := by
  by_cases hrange : 0 ≤ id ∧ id < M
  · obtain ⟨i, rfl⟩ := Int.eq_ofNat_of_zero_le hrange.1
    rw [isValidId_natCast_iff hs h (by omega)]
    refine exists_congr fun k => and_congr_right fun _ => ?_
    omega
  · have hinvalid : (isValidId ring id).1 = false := by
      unfold isValidId
      rw [h.maxSerial]
      split
      · rfl
      split
      · rfl
      rw [if_pos (by omega)]
    rw [hinvalid]
    refine ⟨fun hf => absurd hf (by simp), fun ⟨k, _, hk⟩ => absurd ?_ hrange⟩
    have := mod_lt k hs.maxSerial_pos
    omega

/-- A settled ring is not changed by a lookup. -/
theorem isValidId_snd (h : Settled ring c M n) (id : ℤ) : (isValidId ring id).2 = ring := by
  unfold isValidId
  split
  · rfl
  split
  · rfl
  split
  · rfl
  split
  next hw =>
    have hsplit := h.split hw
    rw [if_neg (by rw [h.serialNum, h.capacity]; omega)]
    split <;> rfl
  next => rfl

/-- A lookup settles a ring whose serial number has just wrapped. -/
theorem Counts.settled (h : Counts ring c M n) (hi : i < M) :
    Settled (isValidId ring i).2 c M n := by
  obtain ⟨hne, hnonneg, hlt⟩ := not_outOfRange h hi
  rw [isValidId, if_neg hne, if_neg hnonneg, if_neg hlt]
  cases hw : ring.wrapped with
  | false =>
    exact { h with split := fun hw' => absurd hw' (by simp [hw]) }
  | true =>
    rw [if_pos rfl]
    by_cases hge : ring.serialNum ≥ ring.capacity
    · rw [if_pos hge]
      rw [h.serialNum, h.capacity] at hge
      exact ⟨⟨h.capacity, h.maxSerial, h.serialNum, fun hf => absurd hf (by simp),
        fun _ => .inr (by omega)⟩, fun hf => absurd hf (by simp)⟩
    · rw [if_neg hge]
      rw [h.serialNum, h.capacity] at hge
      have hsettled : Settled ring c M n := { h with split := fun _ => by omega }
      split <;> exact hsettled

/-- A lookup leaves the table and the capacity alone. -/
theorem isValidId_fields (ring : Ring O) (id : ℤ) :
    (isValidId ring id).2.table = ring.table ∧ (isValidId ring id).2.capacity = ring.capacity := by
  unfold isValidId
  repeat' split
  all_goals exact ⟨rfl, rfl⟩

/-! ## Slots -/

variable {k : ℕ}

/-- The slot of a serial number of the window. -/
theorem indexOfId_of_inWindow (hs : Sizes c M) (h : Counts ring c M n) (hk : InWindow c n k) :
    indexOfId ring (k % M : ℕ) = (((k % c : ℕ) : ℤ), (isValidId ring (k % M : ℕ)).2) := by
  have hvalid : (isValidId ring (k % M : ℕ)).1 := (isValidId_iff hs h _).mpr ⟨k, hk, rfl⟩
  have hindex : ((k % M : ℕ) : ℤ).tmod (c : ℤ) = (k % c : ℕ) := by
    rw [← Int.ofNat_tmod, mod_mod_of_dvd k hs.dvd]
  simp only [indexOfId, hvalid, if_true, (isValidId_fields ..).2, h.capacity, hindex]

variable {id : ℤ} {log : List (ℤ × O)}

/-- An id that is not valid has no slot. -/
theorem indexOfId_of_not_valid (h : ¬(isValidId ring id).1) :
    indexOfId ring id = (kInvalidId, (isValidId ring id).2) := by
  simp [indexOfId, h]

/-- The remainder of a number that is taken from a multiple of `c`. -/
private theorem add_mod_of_dvd {a : ℕ} (ha : c ∣ a) (hi : i < c) : (a + i) % c = i := by
  rw [add_mod, mod_eq_zero_of_dvd ha, zero_add, mod_mod, mod_eq_of_lt hi]

section

variable (hs : Sizes c M) (h : Settled ring c M n)
include hs h

/-- After the wrap, every slot has a serial number of the window. -/
theorem idOfIndex_of_wrapped (hw : ring.wrapped = true)
    (hic : i < c) : ∃ k, InWindow c n k ∧ k % c = i ∧ idOfIndex ring i = (k % M : ℕ) := by
  have hid : idOfIndex ring i = if (i : ℤ) < (n % M : ℕ) then (i : ℤ) else (M : ℤ) - c + i := by
    rw [idOfIndex, if_neg (by omega), if_neg (by rw [h.capacity]; omega), if_pos hw, h.serialNum,
      h.capacity, h.maxSerial]
  have hsplit := h.split hw
  have hle := hs.le
  have hn : M * (n / M) + n % M = n := div_add_mod n M
  rw [hid]
  by_cases hi : i < n % M
  · -- The slot was used in the round of `n`.
    refine ⟨M * (n / M) + i, ⟨by omega, by omega⟩, add_mod_of_dvd (hs.dvd.mul_right _) hic, ?_⟩
    rw [if_pos (by omega), mul_add_mod, mod_eq_of_lt (by omega)]
  -- The slot was used in the round before, among its last numbers.
  obtain ⟨q, hq⟩ : ∃ q, n / M = q + 1 :=
    Nat.exists_eq_add_of_le' (Nat.div_pos (h.wrapped hw) hs.maxSerial_pos)
  rw [hq, mul_add] at hn
  have hdvd : c ∣ M * q + (M - c) :=
    Nat.dvd_add (hs.dvd.mul_right _) (Nat.dvd_sub hs.dvd (Nat.dvd_refl c))
  refine ⟨M * q + (M - c) + i, ⟨by omega, by omega⟩, add_mod_of_dvd hdvd hic, ?_⟩
  rw [if_neg (by omega), add_assoc, mul_add_mod, mod_eq_of_lt (by omega)]
  omega

/-- Before the wrap, every slot in use has a serial number of the window. -/
theorem idOfIndex_of_contiguous (hw : ring.wrapped = false) (hic : i < c) (hin : i < n) :
    ∃ k, InWindow c n k ∧ k % c = i ∧ idOfIndex ring i = (k % M : ℕ) := by
  have hi : i < n % M := by
    rcases h.contiguous hw with hlt | hle
    · rwa [mod_eq_of_lt hlt]
    · omega
  have hsM : n % M < M := mod_lt n hs.maxSerial_pos
  have hn : M * (n / M) + n % M = n := div_add_mod n M
  have hsplit : n % M % c < c := mod_lt _ hs.pos
  have hsplit_le : n % M % c ≤ n % M := mod_le _ _
  have hdvd : c ∣ n % M - n % M % c := dvd_sub_mod _
  have hid : idOfIndex ring i = if (i : ℤ) < (n % M % c : ℕ)
      then ((n % M : ℕ) : ℤ) - (n % M % c : ℕ) + i
      else ((n % M : ℕ) : ℤ) - c - (n % M % c : ℕ) + i := by
    rw [idOfIndex, if_neg (by omega), if_neg (by rw [h.capacity]; omega),
      if_neg (by simp [hw]), h.serialNum, if_pos (by omega), h.capacity, ← Int.ofNat_tmod]
  rw [hid]
  by_cases his : i < n % M % c
  · refine ⟨M * (n / M) + (n % M - n % M % c) + i, ⟨by omega, by omega⟩,
      add_mod_of_dvd (Nat.dvd_add (hs.dvd.mul_right _) hdvd) hic, ?_⟩
    have hlt : n % M - n % M % c + i < M := by omega
    rw [if_pos (by omega), add_assoc, mul_add_mod, mod_eq_of_lt hlt]
    omega
  · -- The slot was used one round of the table earlier.
    have hge : c ≤ n % M - n % M % c := le_of_dvd (by omega) hdvd
    have hdvd' : c ∣ n % M - n % M % c - c := dvd_sub hdvd (dvd_refl c)
    refine ⟨M * (n / M) + (n % M - n % M % c - c) + i, ⟨by omega, by omega⟩,
      add_mod_of_dvd (Nat.dvd_add (hs.dvd.mul_right _) hdvd') hic, ?_⟩
    have hlt : n % M - n % M % c - c + i < M := by omega
    rw [if_neg (by omega), add_assoc, mul_add_mod, mod_eq_of_lt hlt]
    omega

/-- The id of a slot that has been used: that of the number in the window with this slot. -/
theorem idOfIndex_of_lt (hic : i < c)
    (hin : i < n) : ∃ k, InWindow c n k ∧ k % c = i ∧ idOfIndex ring i = (k % M : ℕ) := by
  cases hw : ring.wrapped with
  | true => exact idOfIndex_of_wrapped hs h hw hic
  | false => exact idOfIndex_of_contiguous hs h hw hic hin

/-- The id of the slot of a serial number of the window is this number. -/
theorem idOfIndex_of_inWindow (hk : InWindow c n k) : idOfIndex ring (k % c : ℕ) = (k % M : ℕ) := by
  have hlt : k % c < n := lt_of_le_of_lt (mod_le k c) hk.1
  obtain ⟨k', hk', hmod, hid⟩ := idOfIndex_of_lt hs h (mod_lt k hs.pos) hlt
  rw [hid, hk'.eq_of_mod_eq hk hmod]

end

/-! ## Allocations -/

/-- A log of allocations: each has the id of its number. -/
def Numbered (M : ℕ) (log : List (ℤ × O)) : Prop :=
  ∀ k e, log[k]? = some e → e.1 = ((k % M : ℕ) : ℤ)

/-- **Ring invariant**: the table holds the objects of the last `capacity` allocations. -/
structure Represents (ring : Ring O) (c M : ℕ) (log : List (ℤ × O)) : Prop
    extends Settled ring c M log.length where
  numbered : Numbered M log
  length : ring.table.length = c
  filled : ∀ k e, log[k]? = some e → InWindow c log.length k → ring.table[k % c]? = some (some e.2)
  unused : ∀ i, log.length ≤ i → i < c → ring.table[i]? = some none

/-- `NextSerial` hands out the current serial number and counts on. -/
theorem nextSerial_spec (hs : Sizes c M) (h : Settled ring c M n) :
    (nextSerial ring).1 = (n % M : ℕ) ∧ Counts (nextSerial ring).2 c M (n + 1) ∧
      (nextSerial ring).2.table = ring.table := by
  have hsM : n % M < M := mod_lt n hs.maxSerial_pos
  have hn : M * (n / M) + n % M = n := div_add_mod n M
  unfold nextSerial
  by_cases hwrap : n % M + 1 = M
  · -- The serial number starts again at `0`.
    have hmod : (n + 1) % M = 0 := by
      rw [← hn, add_assoc, hwrap, mul_add_mod, mod_self]
    rw [if_pos (by rw [h.maxSerial, h.serialNum]; omega)]
    refine ⟨h.serialNum, ⟨h.capacity, h.maxSerial, by simp [hmod], fun _ => ?_, fun hf => ?_⟩, rfl⟩
    · omega
    · simp at hf
  · have hmod : (n + 1) % M = n % M + 1 := by
      rw [← hn, add_assoc, mul_add_mod, mul_add_mod, mod_mod,
        mod_eq_of_lt (by omega)]
    rw [if_neg (by rw [h.maxSerial, h.serialNum]; omega)]
    refine ⟨h.serialNum,
      ⟨h.capacity, h.maxSerial, by simp [hmod, h.serialNum], fun hw => ?_, fun hw => ?_⟩, rfl⟩
    · exact le_succ_of_le (h.wrapped hw)
    · rcases h.contiguous hw with hlt | hle
      · rw [mod_eq_of_lt hlt] at hwrap
        exact .inl (by omega)
      · exact .inr (by omega)

/-- Writing the object of the newest serial number to its slot extends the log. -/
theorem Represents.push (hs : Sizes c M) (h : Represents ring c M log)
    {ring' : Ring O} (h' : Settled ring' c M (log.length + 1)) (htable : ring'.table = ring.table)
    (object : O) :
    Represents { ring' with table := ring'.table.set (log.length % c) (some object) } c M
      (log ++ [(((log.length % M : ℕ) : ℤ), object)]) := by
  have hlen : (log ++ [(((log.length % M : ℕ) : ℤ), object)]).length = log.length + 1 := by simp
  have hslot : log.length % c < ring'.table.length := by
    rw [htable, h.length]
    exact mod_lt _ hs.pos
  rw [← hlen] at h'
  refine ⟨⟨⟨h'.capacity, h'.maxSerial, h'.serialNum, h'.wrapped, h'.contiguous⟩, h'.split⟩,
    fun k e hk => ?_, ?_, fun k e hk hwin => ?_, fun i hle hi => ?_⟩
  · rcases lt_or_ge k log.length with hlt | hge
    · rw [getElem?_append_left hlt] at hk
      exact h.numbered k e hk
    rw [getElem?_append_right hge, getElem?_singleton] at hk
    split at hk
    next hzero =>
      cases hk
      rw [show k = log.length by omega]
    next => simp at hk
  · rw [length_set, htable, h.length]
  · rw [hlen] at hwin
    rcases (inWindow_succ_iff hs.pos).mp hwin with rfl | ⟨hold, hlt⟩
    · rw [getElem?_append_right (le_rfl), Nat.sub_self] at hk
      cases hk
      rw [getElem?_set_self hslot]
    -- Another number of the window has another slot.
    have hne : log.length % c ≠ k % c := by
      intro heq
      have hself : InWindow c (log.length + 1) log.length :=
        (inWindow_succ_iff hs.pos).mpr (.inl rfl)
      exact absurd (hself.eq_of_mod_eq hwin heq) (ne_of_gt hold.1)
    rw [getElem?_append_left hold.1] at hk
    rw [getElem?_set_ne hne, htable]
    exact h.filled k e hk hold
  · have hne : log.length % c ≠ i := by
      rw [mod_eq_of_lt (by omega)]
      omega
    rw [getElem?_set_ne hne, htable]
    exact h.unused i (by omega) hi

/-- `AllocateNewId` returns the id of the next number and puts the object into its slot. -/
theorem Represents.allocateNewId (hs : Sizes c M)
    (h : Represents ring c M log) (object : O) :
    ∃ id ring', allocateNewId ring object = some (id, ring') ∧
      Represents ring' c M (log ++ [(id, object)]) := by
  obtain ⟨hid, hcounts, htable⟩ := nextSerial_spec hs h.toSettled
  have hwin : InWindow c (log.length + 1) log.length := (inWindow_succ_iff hs.pos).mpr (.inl rfl)
  have hindex := indexOfId_of_inWindow hs hcounts hwin
  have hsettled := hcounts.settled (mod_lt log.length hs.maxSerial_pos)
  have hpush := h.push hs hsettled (by rw [(isValidId_fields ..).1, htable]) object
  refine ⟨_, _, ?_, hpush⟩
  simp only [ObjectIdRing.allocateNewId, hid, hindex]
  rw [if_neg (natCast_ne_kInvalidId _), Int.toNat_natCast]

/-! ## Lookups -/

variable {log : List (ℤ × O)} {e : ℤ × O}

/-- The last `capacity` allocations of a log. -/
def lastAllocations (capacity : ℤ) (log : List (ℤ × O)) : List (ℤ × O) :=
  log.drop (log.length - capacity.toNat)

/-- The last allocations are those of the window. -/
theorem mem_lastAllocations_iff :
    e ∈ lastAllocations c log ↔ ∃ k, InWindow c log.length k ∧ log[k]? = some e := by
  rw [lastAllocations, Int.toNat_natCast, mem_iff_getElem?]
  constructor
  · rintro ⟨i, hi⟩
    rw [getElem?_drop] at hi
    have hlt := (List.getElem?_eq_some_iff.mp hi).1
    exact ⟨_, ⟨hlt, by omega⟩, hi⟩
  · rintro ⟨k, ⟨hlt, hle⟩, hk⟩
    refine ⟨k - (log.length - c), ?_⟩
    rw [getElem?_drop, show log.length - c + (k - (log.length - c)) = k by omega, hk]

section

variable (hs : Sizes c M) (h : Represents ring c M log)
include hs h

/-- Every slot that holds an object belongs to a number of the window. -/
theorem Represents.exists_inWindow {o : O} (hi : ring.table[i]? = some (some o)) :
    ∃ k, InWindow c log.length k ∧ idOfIndex ring i = (k % M : ℕ) ∧
      log[k]? = some (((k % M : ℕ) : ℤ), o) := by
  have hic : i < c := by
    rw [← h.length]
    exact (List.getElem?_eq_some_iff.mp hi).1
  have hin : i < log.length := by
    by_contra hge
    rw [h.unused i (by omega) hic] at hi
    simp at hi
  obtain ⟨k, hk, hmod, hid⟩ := idOfIndex_of_lt hs h.toSettled hic hin
  refine ⟨k, hk, hid, ?_⟩
  have hlog : log[k]? = some (log.get ⟨k, hk.1⟩) := getElem?_eq_getElem hk.1
  have hfilled := h.filled k _ hlog hk
  rw [hmod, hi] at hfilled
  simp only [Option.some.injEq] at hfilled
  rw [hlog, hfilled, ← h.numbered k _ hlog]

/-- An id of the window gives its object. -/
theorem Represents.getObjectForId_of_inWindow (hk : InWindow c log.length k)
    (he : log[k]? = some e) : getObjectForId ring (k % M : ℕ) = ((.valid, some e.2), ring) := by
  have hindex := indexOfId_of_inWindow hs h.toCounts hk
  rw [isValidId_snd h.toSettled] at hindex
  simp only [getObjectForId, hindex]
  rw [Int.toNat_natCast, h.filled k e he hk]
  rfl

/-- A valid id comes from an allocation of the window. -/
theorem Represents.exists_of_valid (hid : (isValidId ring id).1) : ∃ k object,
    InWindow c log.length k ∧ id = (k % M : ℕ) ∧ log[k]? = some (id, object) ∧
      getObjectForId ring id = ((.valid, some object), ring) := by
  obtain ⟨k, hk, rfl⟩ := (isValidId_iff hs h.toCounts id).mp hid
  have hlog : log[k]? = some (log.get ⟨k, hk.1⟩) := getElem?_eq_getElem hk.1
  refine ⟨k, _, hk, rfl, ?_, h.getObjectForId_of_inWindow hs hk hlog⟩
  rw [hlog, ← h.numbered k _ hlog]

omit hs in
/-- Other ids have expired. -/
theorem Represents.getObjectForId_of_not_valid (hid : ¬(isValidId ring id).1) :
    getObjectForId ring id = ((.expired, none), ring) := by
  simp only [getObjectForId, indexOfId_of_not_valid hid, isValidId_snd h.toSettled, if_true]

/-- Looking an object up does not change a ring that represents a log. -/
theorem Represents.getObjectForId_snd (id : ℤ) : (getObjectForId ring id).2 = ring := by
  by_cases hid : (isValidId ring id).1
  · obtain ⟨k, object, -, -, -, hget⟩ := h.exists_of_valid hs hid
    rw [hget]
  · rw [h.getObjectForId_of_not_valid hid]

/-- The valid ids are those of the last allocations. -/
theorem Represents.isValidId_iff_mem (id : ℤ) :
    (isValidId ring id).1 ↔ ∃ e ∈ lastAllocations c log, e.1 = id := by
  constructor
  · intro hid
    obtain ⟨k, object, hk, -, hlog, -⟩ := h.exists_of_valid hs hid
    exact ⟨_, mem_lastAllocations_iff.mpr ⟨k, hk, hlog⟩, rfl⟩
  · rintro ⟨e, he, rfl⟩
    obtain ⟨k, hk, hlog⟩ := mem_lastAllocations_iff.mp he
    exact (isValidId_iff hs h.toCounts _).mpr ⟨k, hk, h.numbered k e hlog⟩

/-- Later allocations have other ids, as long as the id is in the window. -/
theorem Represents.ne_of_later (hk : InWindow c log.length k) (he : e ∈ log.drop (k + 1)) :
    e.1 ≠ (k % M : ℕ) := by
  obtain ⟨i, hi⟩ := mem_iff_getElem?.mp he
  rw [getElem?_drop] at hi
  have hlt := (List.getElem?_eq_some_iff.mp hi).1
  have hwin : InWindow c log.length (k + 1 + i) := ⟨hlt, by have := hk.2; omega⟩
  rw [h.numbered _ e hi]
  intro heq
  have hmod : (k + 1 + i) % M = k % M := by exact_mod_cast heq
  have hmodc : (k + 1 + i) % c = k % c := by
    rw [← mod_mod_of_dvd _ hs.dvd, hmod, mod_mod_of_dvd _ hs.dvd]
  have := hwin.eq_of_mod_eq hk hmodc
  omega

/-- `IsValidId` agrees with what a lookup returns. -/
theorem Represents.isValidId_iff_ne_expired (id : ℤ) :
    (isValidId ring id).1 ↔ (getObjectForId ring id).1.1 ≠ .expired := by
  by_cases hid : (isValidId ring id).1
  · obtain ⟨k, object, -, -, -, hget⟩ := h.exists_of_valid hs hid
    rw [hget]
    exact iff_of_true hid (by simp)
  · rw [h.getObjectForId_of_not_valid hid]
    exact iff_of_false hid (by simp)

/-- The slot of a valid id lies in the table and leads back to the id. -/
theorem Represents.slot_of_valid (hid : (isValidId ring id).1) :
    0 ≤ (indexOfId ring id).1 ∧ (indexOfId ring id).1 < ring.table.length ∧
      idOfIndex ring (indexOfId ring id).1 = id := by
  obtain ⟨k, hk, rfl⟩ := (isValidId_iff hs h.toCounts id).mp hid
  rw [indexOfId_of_inWindow hs h.toCounts hk, h.length]
  have hlt : k % c < c := mod_lt k hs.pos
  exact ⟨Int.natCast_nonneg _, Int.ofNat_lt.mpr hlt, idOfIndex_of_inWindow hs h.toSettled hk⟩

/-- **A valid id resolves to the object it was last handed out for.** -/
theorem Represents.resolves (hid : (isValidId ring id).1) :
    ∃ before object later, log = before ++ (id, object) :: later ∧ (∀ e ∈ later, e.1 ≠ id) ∧
      (getObjectForId ring id).1 = (.valid, some object) := by
  obtain ⟨k, object, hk, hid, hlog, hget⟩ := h.exists_of_valid hs hid
  obtain ⟨hlt, heq⟩ := List.getElem?_eq_some_iff.mp hlog
  refine ⟨log.take k, object, log.drop (k + 1), ?_, fun e he => ?_, by rw [hget]⟩
  · rw [← heq, ← drop_eq_getElem_cons hlt, take_append_drop]
  · rw [hid]
    exact h.ne_of_later hs hk he

/-- An object is found, with the id of a number of the window, unless it is not in it. -/
theorem Represents.findExistingIdForObject_cases [DecidableEq O] (object : O) :
    (∃ k, InWindow c log.length k ∧ findExistingIdForObject ring object = (k % M : ℕ) ∧
      log[k]? = some (((k % M : ℕ) : ℤ), object)) ∨
    ∀ k e, InWindow c log.length k → log[k]? = some e → e.2 ≠ object := by
  unfold findExistingIdForObject
  split
  next i hfind =>
    obtain ⟨hlt, heq, -⟩ := findIdx?_eq_some_iff_getElem.mp hfind
    refine .inl (h.exists_inWindow hs ?_)
    rw [getElem?_eq_getElem hlt]
    simpa using heq
  next hnone =>
    rw [findIdx?_eq_none_iff] at hnone
    refine .inr fun k e hk he heq => ?_
    have := hnone (some e.2) (mem_of_getElem? (h.filled k e he hk))
    simp [heq] at this

variable [DecidableEq O]

/-- A request that may reuse an id gets a valid id of the object, if there is one. -/
theorem Represents.reuse {object : O}
    (hid : (getObjectForId ring id).1 = (.valid, some object)) :
    ∃ id', getIdForObject ring object .reuseId = some (id', ring) ∧
      (getObjectForId ring id').1 = (.valid, some object) := by
  have hvalid : (isValidId ring id).1 := (h.isValidId_iff_ne_expired hs id).mpr (by rw [hid]; simp)
  obtain ⟨k, o, hk, -, hlog, hget⟩ := h.exists_of_valid hs hvalid
  rw [hget] at hid
  cases hid
  rcases h.findExistingIdForObject_cases hs object with ⟨k', hk', hid', hlog'⟩ | hnone
  · refine ⟨(k' % M : ℕ), ?_, by rw [h.getObjectForId_of_inWindow hs hk' hlog']⟩
    simp only [getIdForObject, hid']
    rw [if_pos (natCast_ne_kInvalidId _)]
  · exact absurd rfl (hnone k _ hk hlog)

/-! ## Runs -/

/-- One operation keeps the representation. -/
theorem Represents.step (op : Op O) :
    ∃ ring' log', step (ring, log) op = some (ring', log') ∧ Represents ring' c M log' := by
  cases op with
  | getObject id =>
    refine ⟨ring, log, ?_, h⟩
    simp [ObjectIdRing.step, h.getObjectForId_snd hs id]
  | getId object policy =>
    obtain ⟨id, ring', halloc, h'⟩ := h.allocateNewId hs object
    cases policy with
    | allocateId => exact ⟨ring', _, by simp [ObjectIdRing.step, getIdForObject, halloc], h'⟩
    | reuseId =>
      by_cases hfind : findExistingIdForObject ring object = kInvalidId
      · exact ⟨ring', _, by simp [ObjectIdRing.step, getIdForObject, halloc, hfind], h'⟩
      · exact ⟨ring, log, by simp [ObjectIdRing.step, getIdForObject, hfind], h⟩

/-- **Every run of operations succeeds and keeps the representation.** -/
theorem Represents.run (ops : List (Op O)) :
    ∃ ring' log', ops.foldlM ObjectIdRing.step (ring, log) = some (ring', log') ∧
      Represents ring' c M log' := by
  induction ops generalizing ring log with
  | nil => exact ⟨ring, log, rfl, h⟩
  | cons op ops ih =>
    obtain ⟨ring₁, log₁, hstep, h1⟩ := h.step hs op
    obtain ⟨ring₂, log₂, hrun, h2⟩ := ih h1
    exact ⟨ring₂, log₂, by rw [foldlM_cons, hstep]; exact hrun, h2⟩

end

/-- The largest multiple of the capacity that is not above the given maximum. -/
theorem sizes_of_le (hc : 0 < c) (hle : c ≤ M) : Sizes c (M - M % c) := by
  refine ⟨hc, ?_, dvd_sub_mod M⟩
  exact le_of_dvd (by have := mod_lt M hc; omega) (dvd_sub_mod M)

/-- A new ring represents the empty log. -/
theorem represents_newRing (hc : 0 < c) (hle : c ≤ M) :
    Represents (newRing c M : Ring O) c (M - M % c) [] := by
  have hM : ((M : ℤ) - (M : ℤ).tmod c) = (M - M % c : ℕ) := by
    rw [← Int.ofNat_tmod, Int.ofNat_sub (mod_le M c)]
  exact ⟨⟨⟨rfl, hM, by simp [newRing, setCapacityAndMaxSerial], nofun,
    fun _ => .inl (sizes_of_le hc hle).maxSerial_pos⟩, nofun⟩, nofun,
    by simp [newRing, setCapacityAndMaxSerial], nofun,
    fun i _ hi => by simp [newRing, setCapacityAndMaxSerial, hi]⟩

/-! ## The whole ring -/

variable [DecidableEq O]

/-- **Ring of object ids.** After any calls, an id is expired if and only if it is not that of one
of the last `capacity` allocations, and any other id resolves to the object of the last allocation
that returned it. Valid ids have different slots, `IdOfIndex` takes a slot back to its id, and a
request that may reuse an id gets a valid id of the object if there is one. -/
theorem run_correct (capacity maxSerial : ℤ) (hcapacity : 0 < capacity)
    (hmax : capacity ≤ maxSerial) (ops : List (Op O)) :
    ∃ ring log, ObjectIdRing.run capacity maxSerial ops = some (ring, log) ∧
      (∀ id, (getObjectForId ring id).1.1 = .expired ↔
        ∀ e ∈ lastAllocations capacity log, e.1 ≠ id) ∧
      (∀ id, (getObjectForId ring id).1.1 ≠ .expired →
        ∃ before object later, log = before ++ (id, object) :: later ∧ (∀ e ∈ later, e.1 ≠ id) ∧
          (getObjectForId ring id).1 = (.valid, some object)) ∧
      (∀ id, (isValidId ring id).1 ↔ (getObjectForId ring id).1.1 ≠ .expired) ∧
      (∀ id, (isValidId ring id).1 →
        0 ≤ (indexOfId ring id).1 ∧ (indexOfId ring id).1 < ring.table.length ∧
          idOfIndex ring (indexOfId ring id).1 = id) ∧
      Set.InjOn (fun id => (indexOfId ring id).1) {id | (isValidId ring id).1} ∧
      (∀ object, (∃ id, (getObjectForId ring id).1 = (.valid, some object)) →
        ∃ id, getIdForObject ring object .reuseId = some (id, ring) ∧
          (getObjectForId ring id).1 = (.valid, some object)) := by
  lift capacity to ℕ using hcapacity.le with c
  lift maxSerial to ℕ using hcapacity.le.trans hmax with M
  have hc : 0 < c := by exact_mod_cast hcapacity
  have hle : c ≤ M := by exact_mod_cast hmax
  have hs := sizes_of_le hc hle
  obtain ⟨ring, log, hrun, h⟩ := (represents_newRing (O := O) hc hle).run hs ops
  refine ⟨ring, log, hrun, fun id => ?_, fun id hid => ?_, h.isValidId_iff_ne_expired hs,
    fun id hid => h.slot_of_valid hs hid, fun id hid id' hid' heq => ?_,
    fun object ⟨id, hid⟩ => h.reuse hs hid⟩
  · rw [← not_iff_not, ← ne_eq, ← h.isValidId_iff_ne_expired hs id, h.isValidId_iff_mem hs]
    simp
  · exact h.resolves hs ((h.isValidId_iff_ne_expired hs id).mpr hid)
  · rw [← (h.slot_of_valid hs hid).2.2, ← (h.slot_of_valid hs hid').2.2]
    exact congrArg (idOfIndex ring) heq

/-- Three allocations and a reuse in a ring of two slots: the ids start again at `0`. -/
theorem run_correct_wrap :
    ∃ ring, ObjectIdRing.run 2 3 [.getId 'a' .allocateId, .getId 'b' .allocateId,
        .getId 'c' .allocateId, .getId 'c' .reuseId] = some (ring, [(0, 'a'), (1, 'b'), (0, 'c')]) ∧
      (getObjectForId ring 0).1 = (.valid, some 'c') ∧
      ((getObjectForId ring 7).1.1 = .expired ↔
        ∀ e ∈ lastAllocations 2 [(0, 'a'), (1, 'b'), (0, 'c')], e.1 ≠ 7) := by
  obtain ⟨ring, log, hrun, hexpired, -⟩ := run_correct 2 3 (by decide) (by decide)
    [.getId 'a' .allocateId, .getId 'b' .allocateId, .getId 'c' .allocateId, .getId 'c' .reuseId]
  have hresult : ObjectIdRing.run 2 3 [.getId 'a' .allocateId, .getId 'b' .allocateId,
      .getId 'c' .allocateId, .getId 'c' .reuseId] =
        some (⟨[some 'c', some 'b'], 2, 2, 1, true⟩, [(0, 'a'), (1, 'b'), (0, 'c')]) := by decide
  cases hrun
  exact ⟨_, hresult, by decide, hexpired 7⟩

end DartVm.ObjectIdRing
