import DartVm.DispatchTable.Fitter

/-! # Filling the table

`FillTable` writes the class ranges of a row one after the other, so an entry ends up with the code
of the last range that holds its class id and has code.  Rows share no slots, so what one row writes
stays.  Writing aborts only beyond the end of the table.

* `fillRanges_spec`: the last range of a row wins.
* `entry_of_row`: the entry of a class, once the whole table is filled. -/

namespace DartVm.DispatchTable

open DartVm.Interval Postcondition List

variable {Fn α : Type} {P : Program Fn} {S : Sorters Fn} {code : Fn → Option α}
variable {entries entries' : List (Option α)} {offset : ℕ} {abort : Prop}
  {rows : List (SelectorRow Fn)} {row : SelectorRow Fn} {ci : CidInterval Fn} {cid : ℕ}

/-! ## Writing class ranges -/

/-- The inner loop of `FillTable` writes the entries of its class ids and no other. -/
theorem setAll_spec {cids : List ℕ} (c : α)
    (habort : ¬ abort → ∀ cid ∈ cids, offset + cid < entries.length) :
    Returns abort (cids.foldlM (fun entries cid => setAt entries (offset + cid) c) entries)
      fun entries' => entries'.length = entries.length ∧
        (∀ cid ∈ cids, entries'[offset + cid]? = some (some c)) ∧
        ∀ y, (∀ cid ∈ cids, y ≠ offset + cid) → entries'[y]? = entries[y]? := by
  induction cids generalizing entries with
  | nil => simp
  | cons cid cids ih =>
    have hset : Returns abort (setAt entries (offset + cid) c) fun entries₁ =>
        offset + cid < entries.length ∧ entries₁ = entries.set (offset + cid) (some c) :=
      returns_ite (fun hlt => ⟨hlt, rfl⟩) fun hge =>
        not_not.mp fun h => hge (habort h cid mem_cons_self)
    refine hset.bind ?_
    rintro _ ⟨hlt, rfl⟩
    refine (ih fun h => ?_).mono ?_
    · simpa using fun cid' hcid' => habort h cid' (mem_cons_of_mem _ hcid')
    rintro entries' ⟨hlen, hwritten, hkept⟩
    refine ⟨by simpa using hlen, fun cid' hcid' => ?_, fun y hy => ?_⟩
    · by_cases hmem : cid' ∈ cids
      · exact hwritten cid' hmem
      · -- Written now, and not again.
        obtain rfl := (mem_cons.mp hcid').resolve_right hmem
        rw [hkept _ fun cid hcid heq => hmem (by rwa [Nat.add_left_cancel heq])]
        simp [hlt]
    · rw [hkept y fun cid' hcid' => hy cid' (mem_cons_of_mem _ hcid')]
      exact getElem?_set_ne (hy cid mem_cons_self).symm

/-- Filling one range writes its code to its slots and nowhere else. -/
theorem fillRange_spec
    (habort : ¬ abort → ∀ cid ∈ ci.range, offset + cid < entries.length) :
    Returns abort (fillRange code offset entries ci) fun entries' =>
      entries'.length = entries.length ∧
      (∀ c, ci.function.bind code = some c → ∀ cid ∈ ci.range,
        entries'[offset + cid]? = some (some c)) ∧
      ∀ y, ((ci.function.bind code).isSome → ∀ cid ∈ ci.range, y ≠ offset + cid) →
        entries'[y]? = entries[y]? := by
  have hmem {cid : ℕ} : cid ∈ List.range' ci.range.begin_ ci.range.length ↔ cid ∈ ci.range := by
    rw [mem_range'_1, mem_iff, Interval.length]
    omega
  unfold fillRange
  split
  · next c hc =>
    refine (setAll_spec c fun h cid hcid => habort h cid (hmem.mp hcid)).mono ?_
    rintro entries' ⟨hlen, hwritten, hkept⟩
    refine ⟨hlen, fun c' hc' cid hcid => ?_, fun y hy => hkept y fun cid hcid => ?_⟩
    · rw [hc] at hc'
      rw [← Option.some.inj hc']
      exact hwritten cid (hmem.mpr hcid)
    · exact hy (by simp [hc]) cid (hmem.mp hcid)
  · next hnone => simp [hnone]

/-- **The last range wins**: an entry gets the code of the last range with code that holds it; the
others stay. -/
theorem fillRanges_spec {ranges : List (CidInterval Fn)}
    (habort : ¬ abort → ∀ ci ∈ ranges, ∀ cid ∈ ci.range, offset + cid < entries.length) :
    Returns abort (ranges.foldlM (fillRange code offset) entries) fun entries' =>
      entries'.length = entries.length ∧
      (∀ cid, (∃ ci ∈ ranges, cid ∈ ci.range ∧ (ci.function.bind code).isSome) →
        ∃ pre ci post c, ranges = pre ++ ci :: post ∧ cid ∈ ci.range ∧
          ci.function.bind code = some c ∧ entries'[offset + cid]? = some (some c) ∧
          ∀ cj ∈ post, cid ∈ cj.range → cj.function.bind code = none) ∧
      ∀ y, (∀ ci ∈ ranges, (ci.function.bind code).isSome → ∀ cid ∈ ci.range, y ≠ offset + cid) →
        entries'[y]? = entries[y]? := by
  induction ranges generalizing entries with
  | nil => simp
  | cons ci ranges ih =>
    refine (fillRange_spec fun h => habort h ci mem_cons_self).bind ?_
    rintro entries₁ ⟨hlen1, hwritten1, hkept1⟩
    refine (ih fun h => ?_).mono ?_
    · rw [hlen1]
      exact fun cj hcj => habort h cj (mem_cons_of_mem _ hcj)
    rintro entries' ⟨hlen, hlast, hkept⟩
    refine ⟨hlen.trans hlen1, ?_, ?_⟩
    · intro cid hex
      -- A later range with code overwrites the entry; without one it stays.
      by_cases hlater : ∃ cj ∈ ranges, cid ∈ cj.range ∧ (cj.function.bind code).isSome
      · obtain ⟨pre, cj, post, c, rfl, hrest⟩ := hlast cid hlater
        exact ⟨ci :: pre, cj, post, c, rfl, hrest⟩
      push Not at hlater
      have hci : cid ∈ ci.range ∧ (ci.function.bind code).isSome := by
        obtain ⟨cj, hcj, hmem, hcode⟩ := hex
        rcases mem_cons.mp hcj with rfl | hcj
        · exact ⟨hmem, hcode⟩
        · exact absurd hcode (hlater cj hcj hmem)
      obtain ⟨c, hc⟩ := Option.isSome_iff_exists.mp hci.2
      refine ⟨[], ci, ranges, c, rfl, hci.1, hc, ?_, fun cj hcj hmem => ?_⟩
      · rw [hkept]
        · exact hwritten1 c hc cid hci.1
        · intro cj hcj hcode cid' hcid' heq
          exact hlater cj hcj (Nat.add_left_cancel heq ▸ hcid') hcode
      · exact Option.not_isSome_iff_eq_none.mp (hlater cj hcj hmem)
    · intro y hy
      rw [hkept y fun cj hcj => hy cj (mem_cons_of_mem _ hcj)]
      exact hkept1 y (hy ci mem_cons_self)

/-! ## Writing all rows -/

/-- The row has class ids only where it has ranges. -/
def SelectorRow.HoldsClasses (row : SelectorRow Fn) : Prop :=
  ∀ ci ∈ row.classRanges, ∀ cid ∈ ci.range, Covers row.ranges cid

/-- The slots of a class range are slots of its row. -/
theorem SelectorRow.HoldsClasses.claims (h : row.HoldsClasses)
    (hoffset : row.offset = some offset) (hci : ci ∈ row.classRanges)
    (hcid : cid ∈ ci.range) : row.Claims (offset + cid) :=
  ⟨offset, hoffset, covers_map_shift.mpr ⟨cid, h ci hci cid hcid, Nat.add_comm _ _⟩⟩

/-- Filling all rows writes to claimed slots only. -/
theorem fillTables_spec (hcovers : ∀ row ∈ rows, row.HoldsClasses)
    (habort : ¬ abort → ∀ row ∈ rows, row.offset ≠ none ∧ ∀ x, row.Claims x → x < entries.length) :
    Returns abort (rows.foldlM (fillTable S code) entries) fun entries' =>
      ∀ y, (∀ row ∈ rows, ¬ row.Claims y) → entries'[y]? = entries[y]? := by
  induction rows generalizing entries with
  | nil => exact fun y _ => rfl
  | cons row rows ih =>
    rw [forall_mem_cons] at hcovers
    have hmem {ci} := ((S.classRanges.perm compareDepth row.classRanges).mem_iff (a := ci)).mp
    have hfirst : Returns abort (fillTable S code entries row) fun entries₁ =>
        entries₁.length = entries.length ∧ ∀ y, ¬ row.Claims y → entries₁[y]? = entries[y]? := by
      cases hoffset : row.offset with
      | none =>
        have habort' : abort := not_not.mp fun h => (habort h row mem_cons_self).1 hoffset
        simpa [fillTable, hoffset] using habort'
      | some offset =>
        refine returns_bind_of_eq hoffset ((fillRanges_spec fun h ci hci cid hcid => ?_).mono ?_)
        · exact (habort h row mem_cons_self).2 _ (hcovers.1.claims hoffset (hmem hci) hcid)
        · rintro entries₁ ⟨hlen, -, hkept⟩
          refine ⟨hlen, fun y hy => hkept y fun ci hci _ cid hcid heq => hy ?_⟩
          exact heq ▸ hcovers.1.claims hoffset (hmem hci) hcid
    refine hfirst.bind ?_
    rintro entries₁ ⟨hlen, hkept1⟩
    refine (ih hcovers.2 fun h r hr => ?_).mono fun entries' hkept y hy => ?_
    · rw [hlen]
      exact habort h r (mem_cons_of_mem _ hr)
    · rw [forall_mem_cons] at hy
      rw [hkept y hy.2, hkept1 y hy.1]

/-- **The entry of a class in a row**: the code of the row's last range that holds the class and has
code. -/
theorem entry_of_row
    (hcovers : ∀ row ∈ rows, row.HoldsClasses) (hdisjoint : rows.Pairwise NoSharedSlot)
    (h : rows.foldlM (fillTable S code) entries = some entries') (hrow : row ∈ rows)
    (hcid : ∃ ci ∈ row.classRanges, cid ∈ ci.range ∧ (ci.function.bind code).isSome) :
    ∃ offset pre ci post c, row.offset = some offset ∧
      S.classRanges.sort compareDepth row.classRanges = pre ++ ci :: post ∧ cid ∈ ci.range ∧
      ci.function.bind code = some c ∧ entries'[offset + cid]? = some (some c) ∧
      ∀ cj ∈ post, cid ∈ cj.range → cj.function.bind code = none := by
  obtain ⟨before, after, rfl⟩ := append_of_mem hrow
  rw [foldlM_append] at h
  obtain ⟨entries₁, -, h⟩ := Option.bind_eq_some_iff.mp h
  obtain ⟨entries₂, hfill, hafter⟩ := Option.bind_eq_some_iff.mp h
  obtain ⟨offset, hoffset, hranges⟩ := Option.bind_eq_some_iff.mp hfill
  have hkept := (fillTables_spec (fun r hr => hcovers r (by simp [hr]))
    (absurd trivial)).of_eq_some hafter
  obtain ⟨ci, hci, hmem, hcode⟩ := hcid
  have hperm := S.classRanges.perm compareDepth row.classRanges
  obtain ⟨pre, cl, post, c, hsplit, hcl, hc, hentry, hpost⟩ :=
    ((fillRanges_spec (absurd trivial)).of_eq_some hranges).2.1 cid
      ⟨ci, hperm.mem_iff.mpr hci, hmem, hcode⟩
  refine ⟨offset, pre, cl, post, c, hoffset, hsplit, hcl, hc, ?_, hpost⟩
  -- The rows behind claim other slots.
  rw [hkept, hentry]
  intro r hr hclaims
  rw [pairwise_append, pairwise_cons] at hdisjoint
  refine hdisjoint.2.1.1 r hr (offset + cid) ⟨?_, hclaims⟩
  exact (hcovers row (by simp)).claims hoffset hci hmem

end DartVm.DispatchTable
