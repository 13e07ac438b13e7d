import DartVm.Tables.PortSet

/-! # Looking up and allocating ports

`PortSet::FindIndexOfPort` for every `Dart_Port`, and `PortMap::AllocatePort` of `port.cc`.  The id
of a deleted entry is a port for neither of them: `FreeBeforeDeleted` says whether a search for this
id ends at a free slot.

* `findIndexOfDartPort_iff`: when looking a port up is right.
* `allocatePort_iff`: when a new port is returned. -/

namespace DartVm.PortSets

open OpenAddressing Nat

variable {T : Type}

/-! ## Model -/

/-- `PortSet::FindIndexOfPort` for any `Dart_Port`, with a signed `%`. Reading outside of the map is
`none`. -/
def findIndexOfDartPort (s : PortSet T) (port : ℤ) : Option (Option ℕ) :=
  if port = kFreePort then some none
  else
    let start := port.tmod s.map.length
    if start < 0 then none
    else do
      let index ← probe s.map start.toNat fun e => e.port == kFreePort || (e.port : ℤ) == port
      some (if s.map[index]?.any (·.port == kFreePort) then none else some index)

/-- `PortSet::Contains`. -/
def contains (s : PortSet T) (port : ℤ) : Option Bool := (findIndexOfDartPort s port).map (·.isSome)

/-- The id that `AllocatePort` makes of an output of the generator. -/
def portOfOutput (output : BitVec 64) : ℕ := (output &&& 0xFFFFFFFFFFFFF ||| 0x3).toNat

/-- `PortMap::AllocatePort` within `fuel` iterations. The `continue` for the marks does nothing, as
it goes on with the condition of the loop. -/
def allocatePort (s : PortSet T) (outputs : ℕ → BitVec 64) : ℕ → Option ℕ
  | 0 => none
  | fuel + 1 => do
    let result := portOfOutput (outputs 0)
    if ← contains s result then allocatePort s (fun i => outputs (i + 1)) fuel else some result

/-! ## Looking up -/

/-- From the slot of `kDeletedPort` on, a free entry comes before any deleted one. -/
def FreeBeforeDeleted (s : PortSet T) : Prop :=
  ∀ j, s.map[linear s.map.length kDeletedPort j]?.any (·.port == kDeletedPort) →
    ∃ i < j, s.map[linear s.map.length kDeletedPort i]?.any (·.port == kFreePort)

/-- The result for a port is the slot of its entry or, if there is none, says so. -/
def IsIndexOf (held : List (Entry T)) (s : PortSet T) (port : ℤ) (found : Option ℕ) : Prop :=
  (∀ i, found = some i → ∃ e ∈ held, (e.port : ℤ) = port ∧ s.map[i]? = some e) ∧
    (found = none → ∀ e ∈ held, (e.port : ℤ) ≠ port)

variable {s : PortSet T} {held : List (Entry T)} {d : ℕ} {port : ℤ}

/-- The probing path of a port, by its remainder. -/
theorem linear_tmod {n : ℕ} (p : ℕ) (hp : (p : ℤ) = port) :
    linear n p = linear n (port.tmod n).toNat := by
  funext j
  have hmod : (port.tmod n).toNat = p % n := by
    rw [← hp, Int.tmod_eq_emod_of_nonneg (Int.natCast_nonneg p), ← Int.natCast_mod,
      Int.toNat_natCast]
  rw [linear, linear, hmod, mod_add_mod]

/-- **A search** ends at the first entry that is free or has the port. -/
theorem exists_findIndexOfDartPort (h : Inv s held d) (port : ℤ) (hport : port ≠ kFreePort)
    (hstart : 0 ≤ port.tmod s.map.length) :
    ∃ j x, First s.map (linear s.map.length (port.tmod s.map.length).toNat)
        (fun e => e.port == kFreePort || (e.port : ℤ) == port) j x ∧
      findIndexOfDartPort s port = some (if x.port = kFreePort then none
        else some (linear s.map.length (port.tmod s.map.length).toNat j)) := by
  obtain ⟨free, hmem, hfree⟩ := h.holds.exists_free h.free
  obtain ⟨j, x, hfirst⟩ := exists_probe (port.tmod s.map.length).toNat
    (fun e => e.port == kFreePort || (e.port : ℤ) == port) hmem
    (Bool.or_eq_true_iff.mpr (.inl (beq_iff_eq.mpr hfree)))
  refine ⟨j, x, hfirst, ?_⟩
  simp only [findIndexOfDartPort, if_neg hport, if_neg (not_lt.mpr hstart), probe_eq hfirst]
  simp [hfirst.get]

/-- A lookup ends and finds the port if it is there. -/
theorem exists_isIndexOf (h : Inv s held d) (port : ℤ) (hport : port ≠ kFreePort)
    (hport' : port ≠ kDeletedPort) (hstart : 0 ≤ port.tmod s.map.length) :
    ∃ found, findIndexOfDartPort s port = some found ∧ IsIndexOf held s port found := by
  obtain ⟨j, x, hfirst, hfind⟩ := exists_findIndexOfDartPort h port hport hstart
  refine ⟨_, hfind, ?_⟩
  have hcases := h.holds.search hfirst (fun a => (a.port : ℤ) = port) (fun a => ?_)
    fun a _ ha => linear_tmod a.port ha
  · rcases hcases with ⟨hxfree, hnone⟩ | ⟨hlive, hmem, hxport⟩
    · rw [if_pos (show x.port = kFreePort from hxfree)]
      exact ⟨nofun, fun _ => hnone⟩
    · rw [if_neg (show x.port ≠ kFreePort from hlive.1)]
      refine ⟨fun i hi => ?_, nofun⟩
      cases hi
      exact ⟨x, hmem, hxport, hfirst.get⟩
  · -- An entry with the port is live.
    rw [Bool.or_eq_true_iff, beq_iff_eq, beq_iff_eq]
    refine or_congr Iff.rfl ⟨fun ha => ⟨⟨?_, ?_⟩, ha⟩, fun ha => ha.2⟩
    · exact fun hfree => hport (ha ▸ congrArg Nat.cast hfree)
    · exact fun hdeleted => hport' (ha ▸ congrArg Nat.cast hdeleted)

/-- A search for the id of deleted entries returns one of them, unless a free entry comes first. -/
theorem findIndexOfDartPort_deleted (h : Inv s held d) :
    ∃ found, findIndexOfDartPort s kDeletedPort = some found ∧
      (∀ i, found = some i → ∃ x, s.map[i]? = some x ∧ x.port = kDeletedPort) ∧
      (found = none ↔ FreeBeforeDeleted s) := by
  have hstart : 0 ≤ ((kDeletedPort : ℕ) : ℤ).tmod s.map.length := Int.tmod_nonneg _ (by simp)
  obtain ⟨j, x, hfirst, hfind⟩ := exists_findIndexOfDartPort h kDeletedPort (by decide) hstart
  refine ⟨_, hfind, ?_⟩
  rw [← linear_tmod kDeletedPort rfl] at hfirst ⊢
  have hstops := hfirst.stops
  rw [Bool.or_eq_true_iff, beq_iff_eq, beq_iff_eq, Nat.cast_inj] at hstops
  rcases hstops with hfree | hdeleted
  · rw [if_pos hfree]
    refine ⟨nofun, iff_of_true rfl fun k hk => ⟨j, ?_, by simp [hfirst.get, hfree]⟩⟩
    -- A deleted entry before the free one would have ended the search.
    by_contra hle
    obtain ⟨y, hy, hydeleted⟩ := (Option.any_eq_true _ _).mp hk
    rcases lt_or_eq_of_le (not_lt.mp hle) with hlt | rfl
    · have hnot := hfirst.not_stop hlt hy
      simp [beq_iff_eq.mp hydeleted] at hnot
    · cases hfirst.get.symm.trans hy
      rw [hfree] at hydeleted
      cases hydeleted
  · rw [if_neg (by rw [hdeleted]; decide)]
    refine ⟨fun i hi => ?_, iff_of_false nofun fun hbefore => ?_⟩
    · cases hi
      exact ⟨x, hfirst.get, hdeleted⟩
    · obtain ⟨i, hi, hfree⟩ := hbefore j (by simp [hfirst.get, hdeleted])
      obtain ⟨y, hy, hyfree⟩ := (Option.any_eq_true _ _).mp hfree
      have hnot := hfirst.not_stop hi hy
      simp [beq_iff_eq.mp hyfree] at hnot

variable [Inhabited T]

/-- **Looking up any port** in any reachable set: the search stays in the map and ends at the port's
live entry, or says that there is none, if and only if the start slot is not negative and, for the
id of deleted entries, a free entry comes before them. -/
theorem findIndexOfDartPort_iff (h : Run s held) (port : ℤ) :
    (∃ found, findIndexOfDartPort s port = some found ∧ IsIndexOf held s port found) ↔
      0 ≤ port.tmod s.map.length ∧ (port = kDeletedPort → FreeBeforeDeleted s) := by
  obtain ⟨d, hinv⟩ := h.inv
  have hlive : ∀ e ∈ held, e.port ≠ kFreePort ∧ e.port ≠ kDeletedPort := fun e he =>
    (hinv.holds.mem_iff.mp he).2
  by_cases hfree : port = kFreePort
  · subst hfree
    refine iff_of_true ⟨none, rfl, nofun, fun _ e he heq => (hlive e he).1 (cast_inj.mp heq)⟩ ?_
    exact ⟨Int.tmod_nonneg _ (by simp), fun hdeleted => absurd hdeleted (by decide)⟩
  by_cases hstart : 0 ≤ port.tmod s.map.length
  · rw [and_iff_right hstart]
    by_cases hdeleted : port = kDeletedPort
    · subst hdeleted
      obtain ⟨found, hfind, hsome, hnone⟩ := findIndexOfDartPort_deleted hinv
      rw [hfind, imp_iff_right rfl, ← hnone]
      constructor
      · rintro ⟨_, ⟨⟩, hindex⟩
        rw [Option.eq_none_iff_forall_ne_some]
        intro i hi
        obtain ⟨e, he, heq, -⟩ := hindex.1 i hi
        exact (hlive e he).2 (cast_inj.mp heq)
      · rintro rfl
        exact ⟨none, rfl, nofun, fun _ e he heq => (hlive e he).2 (cast_inj.mp heq)⟩
    · exact iff_of_true (exists_isIndexOf hinv port hfree hdeleted hstart) fun heq =>
        absurd heq hdeleted
  · refine iff_of_false ?_ fun hcond => hstart hcond.1
    rintro ⟨found, hfind, -⟩
    simp only [findIndexOfDartPort, if_neg hfree, if_pos (not_le.mp hstart)] at hfind
    cases hfind

/-- A negative port is looked up before the first slot, and the id of deleted entries is found after
a deletion. -/
theorem findIndexOfDartPort_not_index :
    ∃ s s' : PortSet Unit, Run s [] ∧ findIndexOfDartPort s (-1) = none ∧
      Run s' [] ∧ findIndexOfDartPort s' 3 = some (some 3) := by
  have hinsert : Run _ [⟨11, ()⟩] :=
    Run.initial.insert (by decide) (fun x hx => absurd hx List.not_mem_nil) rfl
  exact ⟨initial, _, Run.initial, rfl,
    @Run.delete _ _ _ _ _ _ 3 hinsert rfl (by decide) (List.Perm.refl _), rfl⟩

/-- Of two ports with the same start slot the first one is deleted; the search for the other one
goes on behind the deleted entry. -/
theorem findIndexOfDartPort_behind :
    ∃ s : PortSet Unit, Run s [⟨19, ()⟩] ∧
      ∃ found, findIndexOfDartPort s 19 = some found ∧ IsIndexOf [⟨19, ()⟩] s 19 found := by
  have hfirst : Run _ [⟨11, ()⟩] :=
    Run.initial.insert (by decide) (fun x hx => absurd hx List.not_mem_nil) rfl
  have hsecond : Run _ [⟨19, ()⟩, ⟨11, ()⟩] := hfirst.insert (by decide) (by simp) rfl
  have hrun := @Run.delete _ _ _ _ _ _ 3 hsecond rfl (by decide) (.swap ..)
  exact ⟨_, hrun, (findIndexOfDartPort_iff hrun 19).mpr ⟨by decide, fun h => absurd h (by decide)⟩⟩

/-! ## Allocating -/

/-- A port that is made from random bits is not the mark of a free entry. -/
theorem portOfOutput_ne_free (output : BitVec 64) : portOfOutput output ≠ kFreePort := by
  intro h
  have hbit : (portOfOutput output).testBit 0 = true := by
    simp [portOfOutput, BitVec.toNat_or]
  rw [h] at hbit
  cases hbit

omit [Inhabited T] in
/-- What `Contains` answers; the mark of deleted entries may be taken for a port. -/
theorem contains_eq (h : Inv s held d) (p : ℕ) (hp : p ≠ kFreePort) :
    ∃ found, contains s p = some found ∧
      (found ↔ (∃ e ∈ held, e.port = p) ∨ p = kDeletedPort ∧ ¬FreeBeforeDeleted s) := by
  by_cases hdeleted : p = kDeletedPort
  · subst hdeleted
    obtain ⟨found, hfind, -, hnone⟩ := findIndexOfDartPort_deleted h
    refine ⟨found.isSome, by rw [contains, hfind]; rfl, ?_⟩
    rw [← hnone, ← Option.isNone_iff_eq_none, Bool.not_eq_true, Option.isNone_eq_false_iff]
    refine ⟨fun hsome => .inr ⟨rfl, hsome⟩, ?_⟩
    rintro (⟨e, he, heq⟩ | ⟨-, hsome⟩)
    · exact absurd heq (h.holds.mem_iff.mp he).2.2
    · exact hsome
  · obtain ⟨found, hfind, hsome, hnone⟩ := exists_isIndexOf h p
      (fun heq => hp (cast_inj.mp heq)) (fun heq => hdeleted (cast_inj.mp heq))
      (Int.tmod_nonneg _ (by simp))
    refine ⟨found.isSome, by rw [contains, hfind]; rfl, ?_⟩
    rw [or_iff_left fun hand => hdeleted hand.1]
    cases found with
    | none => exact iff_of_false nofun fun ⟨e, he, heq⟩ => hnone rfl e he (cast_inj.mpr heq)
    | some i =>
      obtain ⟨e, he, heq, -⟩ := hsome i rfl
      exact iff_of_true rfl ⟨e, he, cast_inj.mp heq⟩

/-- The generator's output is passed over: its id is in use or found as a deleted entry. -/
def Rejected (s : PortSet T) (held : List (Entry T)) (output : BitVec 64) : Prop :=
  (∃ e ∈ held, e.port = portOfOutput output) ∨
    portOfOutput output = kDeletedPort ∧ ¬FreeBeforeDeleted s

omit [Inhabited T] in
/-- **`AllocatePort`** returns the id of the first output that is not rejected. -/
theorem allocatePort_eq_some_iff (h : Inv s held d) (outputs : ℕ → BitVec 64) (fuel result : ℕ) :
    allocatePort s outputs fuel = some result ↔ ∃ k < fuel, portOfOutput (outputs k) = result ∧
      ¬Rejected s held (outputs k) ∧ ∀ i < k, Rejected s held (outputs i) := by
  induction fuel generalizing outputs with
  | zero => simp [allocatePort]
  | succ fuel ih =>
    obtain ⟨found, hfound, hiff⟩ := contains_eq h _ (portOfOutput_ne_free (outputs 0))
    rw [allocatePort]
    simp only [hfound, Option.bind_eq_bind, Option.bind_some]
    cases found with
    | true =>
      have hrejected : Rejected s held (outputs 0) := hiff.mp rfl
      rw [if_pos rfl, ih]
      constructor
      · rintro ⟨k, hk, hresult, hnot, hbefore⟩
        refine ⟨k + 1, by omega, hresult, hnot, ?_⟩
        rintro (_ | i) hi
        · exact hrejected
        · exact hbefore i (by omega)
      · rintro ⟨_ | k, hk, hresult, hnot, hbefore⟩
        · exact absurd hrejected hnot
        · exact ⟨k, by omega, hresult, hnot, fun i hi => hbefore (i + 1) (by omega)⟩
    | false =>
      have hnot : ¬Rejected s held (outputs 0) := fun hrejected => nomatch hiff.mpr hrejected
      rw [if_neg Bool.false_ne_true, Option.some.injEq]
      constructor
      · exact fun hresult => ⟨0, succ_pos _, hresult, hnot, fun i hi => absurd hi (not_lt_zero i)⟩
      · rintro ⟨_ | k, hk, hresult, -, hbefore⟩
        · exact hresult
        · exact absurd (hbefore 0 (succ_pos k)) hnot

/-- **Allocating a port** in any reachable table, with any outputs: a new port that is no mark is
returned if and only if some output gives one, and every output before it gives an id in use or is
rejected as a deleted entry. -/
theorem allocatePort_iff (h : Run s held) (outputs : ℕ → BitVec 64) :
    (∃ fuel result, allocatePort s outputs fuel = some result ∧ result ≠ kFreePort ∧
        result ≠ kDeletedPort ∧ ∀ e ∈ held, e.port ≠ result) ↔
      ∃ k, portOfOutput (outputs k) ≠ kDeletedPort ∧
        (∀ e ∈ held, e.port ≠ portOfOutput (outputs k)) ∧
        ∀ i < k, (∃ e ∈ held, e.port = portOfOutput (outputs i)) ∨
          portOfOutput (outputs i) = kDeletedPort ∧ ¬FreeBeforeDeleted s := by
  obtain ⟨d, hinv⟩ := h.inv
  constructor
  · rintro ⟨fuel, result, hresult, -, hdeleted, hnew⟩
    obtain ⟨k, -, rfl, -, hbefore⟩ := (allocatePort_eq_some_iff hinv outputs fuel result).mp hresult
    exact ⟨k, hdeleted, hnew, hbefore⟩
  rintro ⟨k, hdeleted, hnew, hbefore⟩
  refine ⟨k + 1, _, (allocatePort_eq_some_iff hinv outputs _ _).mpr
    ⟨k, lt_succ_self k, rfl, ?_, hbefore⟩, portOfOutput_ne_free _, hdeleted, hnew⟩
  rintro (⟨e, he, heq⟩ | ⟨heq, -⟩)
  · exact hnew e he heq
  · exact hdeleted heq

/-- In the first table, an output without bits gives the id of deleted entries. -/
theorem allocatePort_deletedPort :
    Run (initial : PortSet Unit) [] ∧
      allocatePort (initial : PortSet Unit) (fun _ => 0) 1 = some kDeletedPort :=
  ⟨Run.initial, rfl⟩

/-- The first output gives a port in use, the next one a new port. -/
theorem allocatePort_second :
    ∃ s : PortSet Unit, Run s [⟨11, ()⟩] ∧
      ∃ fuel result, allocatePort s (fun i => if i = 0 then 8 else 16) fuel = some result ∧
        result ≠ kFreePort ∧ result ≠ kDeletedPort ∧
        ∀ e ∈ ([⟨11, ()⟩] : List (Entry Unit)), e.port ≠ result := by
  have hrun : Run _ [⟨11, ()⟩] :=
    Run.initial.insert (by decide) (fun x hx => absurd hx List.not_mem_nil) rfl
  refine ⟨_, hrun, (allocatePort_iff hrun _).mpr ⟨1, by decide, by decide, fun i hi => .inl ?_⟩⟩
  exact ⟨_, List.mem_singleton_self _, by rw [lt_one_iff.mp hi]; decide⟩

end DartVm.PortSets
