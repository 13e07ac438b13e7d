import DartVm.CompactHash.Operations

/-! # The linked hash map is a finite map

Programs see a finite map whose keys are in the order of their insertion, as long as the index does
not outgrow pairs of 32 bits.

* `Refines.call`, `Refines.run`: a call, and a sequence of calls, does what it does on the finite
  map.
* `linkedHashMap_correct`: every program sees a finite map in the order of insertion. -/

namespace DartVm.CompactHash

open OpenAddressing LinkedHashMap Option Machine

variable {K V : Type} {keys : KeyEquality K}

/-! ## Finite maps -/

/-- A finite map, with the keys of the calls of `putIfAbsent` that are not finished. -/
structure FiniteMap (K V : Type) where
  map : List (K × V)
  pending : List K

namespace FiniteMap

/-- The empty map. -/
def initial : FiniteMap K V := ⟨[], []⟩

/-- What a call does to a finite map. -/
def call (keys : KeyEquality K) (a : FiniteMap K V) : Call K V → FiniteMap K V × Outcome K V
  | .get key => (a, .value ((lookup keys a.map key).map .value))
  | .containsKey key => (a, .bool (lookup keys a.map key).isSome)
  | .length => (a, .number a.map.length)
  | .keys => (a, .list (a.map.map fun e => .key e.1))
  | .values => (a, .list (a.map.map fun e => .value e.2))
  | .set key value => ({ a with map := assign keys a.map key value }, .done)
  | .putIfAbsent key =>
    match lookup keys a.map key with
    | some value => (a, .value (some (.value value)))
    | none => ({ a with pending := key :: a.pending }, .callsIfAbsent)
  | .ifAbsentReturns value =>
    match a.pending with
    | [] => (a, .done)
    | key :: pending => (⟨assign keys a.map key value, pending⟩, .value (some (.value value)))
  | .ifAbsentThrows => ({ a with pending := a.pending.tail }, .done)
  | .remove key => ({ a with map := erase keys a.map key },
    .value ((lookup keys a.map key).map .value))
  | .clear => ({ a with map := [] }, .done)

/-- What a sequence of calls does to a finite map. -/
def run (keys : KeyEquality K) :
    FiniteMap K V → List (Call K V) → FiniteMap K V × List (Outcome K V)
  | a, [] => (a, [])
  | a, c :: calls =>
    let (a, outcome) := a.call keys c
    let (a, outcomes) := run keys a calls
    (a, outcome :: outcomes)

end FiniteMap

/-! ## Calls of `putIfAbsent` -/

/-- **What `putIfAbsent` can rely on** after its callback: if `_isModifiedSince` sees no change, the
insertion point is still right. -/
structure Waits (keys : KeyEquality K) (m : LinkedHashMap K V) (p : Pending K) : Prop where
  id_le : p.oldDataId ≤ m.dataId
  sum_le : p.oldDataId = m.dataId → p.oldCheckSum ≤ m.checkSum
  unchanged : p.oldDataId = m.dataId → p.oldCheckSum = m.checkSum →
    p.hashPattern = hashPattern (keys.hashCode p.key) m.hashMask m.index.length ∧
      m.findValueOrInsertPoint keys p.key (keys.hashCode p.key) p.hashPattern m.index.length =
        some (-p.i : ℤ)

variable {m : LinkedHashMap K V} {p : Pending K}

/-- A waiting `putIfAbsent` is not harmed by what happens to the map. -/
theorem Waits.evolves {m' : LinkedHashMap K V} (h : Waits keys m p)
    (hevolves : Evolves keys m m') : Waits keys m' p := by
  have hid := h.id_le
  rcases hevolves with hlt | ⟨heq, hlt | ⟨hsum, hindex, hmask, hfind⟩⟩
  · exact ⟨by omega, fun hid' => by omega, fun hid' => by omega⟩
  · refine ⟨by omega, fun hid' => ?_, fun hid' hsum => ?_⟩
    · have := h.sum_le (by omega)
      omega
    · have := h.sum_le (by omega)
      omega
  · refine ⟨by omega, fun hid' => ?_, fun hid' hsum' => ?_⟩
    · have := h.sum_le (by omega)
      omega
    · rw [hindex, hmask, hfind]
      exact h.unchanged (by omega) (by omega)

/-! ## Refinement -/

/-- **Refinement**: the map holds the entries of the finite map. -/
structure Refines (keys : KeyEquality K) (s : Machine K V) (a : FiniteMap K V) : Prop where
  table : ∃ entries slots, Table keys s.map entries slots ∧ contents entries = a.map
  pending : s.pending.map (·.key) = a.pending
  waits : ∀ p ∈ s.pending, Waits keys s.map p

/-- The empty map refines the empty finite map. -/
theorem refines_initial : Refines keys (initial : Machine K V) FiniteMap.initial where
  table := by
    refine ⟨[], [.free], ?_, rfl⟩
    constructor
    · exact .inl ⟨rfl, rfl⟩
    · exact ⟨0, rfl, .inl rfl⟩
    · rfl
    · exact probed_replicate 1
    · exact List.Perm.refl _
    · exact le_refl 1
    · exact le_refl 0
    · rfl
    · rfl
    · rfl
    · exact List.Pairwise.nil
  pending := rfl
  waits := by simp [Machine.initial]

variable {s : Machine K V} {a : FiniteMap K V}

variable {entries : List (Option (K × V))} {slots : List (Slot (ℕ × K))}

/-- A call that changes the map only keeps the waiting calls right. -/
theorem Refines.of_evolves (h : Refines keys s a) (htable : Table keys m entries slots)
    (hevolves : Evolves keys s.map m) :
    Refines keys { s with map := m } { a with map := contents entries } :=
  ⟨⟨entries, slots, htable, rfl⟩, h.pending, fun p hp => (h.waits p hp).evolves hevolves⟩

/-- **`putIfAbsent`** up to its callback. -/
theorem Refines.putIfAbsent (hkeys : keys.Lawful) (h : Refines keys s a) (key : K) :
    ∃ s', s.putIfAbsent keys key = some (s', (a.call keys (.putIfAbsent key)).2) ∧
      Refines keys s' (a.call keys (.putIfAbsent key)).1 ∧ Later s.map s'.map := by
  obtain ⟨entries, slots, htable, hmap⟩ := h.table
  rw [Machine.putIfAbsent, FiniteMap.call, ← hmap]
  rcases htable.findValueOrInsertPoint_spec hkeys key with
    ⟨n, k, v, hequals, hentry, hfind⟩ | ⟨i, hnone, -, hfind⟩
  · have hvalue : s.map.data[2 * n + 1]? = some (.value v) := (htable.getElem?_data hentry).2
    refine ⟨s, ?_, ?_, .refl _⟩
    · simp only [hfind, bind_eq_bind, bind_some, (found hkeys htable.apart hentry hequals v).1]
      rw [if_pos (by omega), show (2 * (n : ℤ) + 1).toNat = 2 * n + 1 by omega, hvalue]
      rfl
    · rw [(found hkeys htable.apart hentry hequals v).1]
      exact h
  · refine ⟨{ s with pending := ⟨key, hashPattern (keys.hashCode key) s.map.hashMask
      s.map.index.length, i, s.map.dataId, s.map.checkSum⟩ :: s.pending }, ?_, ?_, .refl _⟩
    · simp only [hfind, bind_eq_bind, bind_some, lookup_notFound hnone]
      rw [if_neg (by omega), neg_neg, Int.toNat_natCast]
    rw [lookup_notFound hnone]
    refine ⟨⟨entries, slots, htable, rfl⟩, ?_, fun p hp => ?_⟩
    · rw [List.map_cons, h.pending]
    · rcases List.mem_cons.mp hp with rfl | hp
      · exact ⟨le_rfl, fun _ => le_rfl, fun _ _ => ⟨rfl, hfind⟩⟩
      · exact h.waits p hp

/-- **The end of a callback** inserts the key if it is still absent, searching again if the map has
changed. -/
theorem Waits.insertAbsent (hkeys : keys.Lawful) (h : Table keys m entries slots)
    (hp : Waits keys m p) (hfits : m.HasRoomFor keys p.key) (value : V) :
    ∃ m' entries' slots', insertAbsent keys m p value = some m' ∧
      Table keys m' entries' slots' ∧
      contents entries' = assign keys (contents entries) p.key value ∧ Evolves keys m m' ∧
      m'.deletedKeys ≤ m.deletedKeys := by
  rw [Machine.insertAbsent]
  split
  · exact h.set hkeys p.key hfits value
  next hsame =>
    rw [not_or, not_not, not_not] at hsame
    obtain ⟨hpattern, hfind⟩ := hp.unchanged hsame.1.symm hsame.2.symm
    rw [hpattern] at hfind ⊢
    rcases h.findValueOrInsertPoint_spec hkeys p.key with
      ⟨n, k, v, -, -, hfind'⟩ | ⟨i, hnone, hi, hfind'⟩
    · have := some.inj (hfind.symm.trans hfind')
      omega
    obtain rfl : p.i = i := by
      have := some.inj (hfind.symm.trans hfind')
      omega
    exact h.insertWithin hkeys 0 (hfits (h.get_absent hkeys hnone)) hi hnone value

/-- The calls that may insert do not make the index outgrow pairs of 32 bits. -/
def Call.Fits (keys : KeyEquality K) (s : Machine K V) : Call K V → Prop
  | .set key _ => s.map.HasRoomFor keys key
  | .ifAbsentReturns _ => ∀ p ∈ s.pending.head?, s.map.HasRoomFor keys p.key
  | _ => True

/-- **Step**: a call on the map does what it does on the finite map. -/
theorem Refines.call (hkeys : keys.Lawful) (h : Refines keys s a) (c : Call K V)
    (hfits : c.Fits keys s) :
    ∃ s', s.call keys c = some (s', (a.call keys c).2) ∧ Refines keys s' (a.call keys c).1 ∧
      Later s.map s'.map := by
  obtain ⟨entries, slots, htable, hmap⟩ := h.table
  cases c with
  | get key =>
    refine ⟨s, ?_, h, .refl _⟩
    rw [Machine.call, htable.get hkeys, hmap]
    rfl
  | containsKey key =>
    refine ⟨s, ?_, h, .refl _⟩
    rw [Machine.call, htable.get hkeys, hmap, FiniteMap.call, ← isSome_map]
    rfl
  | length =>
    refine ⟨s, ?_, h, .refl _⟩
    rw [Machine.call, htable.length_eq, hmap]
    rfl
  | keys =>
    refine ⟨s, ?_, h, .refl _⟩
    rw [Machine.call, htable.iterate_eq.1, hmap]
    rfl
  | values =>
    refine ⟨s, ?_, h, .refl _⟩
    rw [Machine.call, htable.iterate_eq.2, hmap]
    rfl
  | set key value =>
    obtain ⟨m', entries', slots', hset, htable', hmap', hevolves, hdeleted⟩ :=
      htable.set hkeys key hfits value
    refine ⟨{ s with map := m' }, ?_, ?_, hevolves.later hdeleted⟩
    · rw [Machine.call, hset]
      rfl
    · rw [FiniteMap.call, ← hmap, ← hmap']
      exact h.of_evolves htable' hevolves
  | putIfAbsent key => exact h.putIfAbsent hkeys key
  | ifAbsentReturns value =>
    -- The innermost callback returns; the outer ones still wait, for a map that has evolved.
    have hpending := h.pending
    rw [Machine.call, Machine.ifAbsentReturns, FiniteMap.call, ← hpending]
    cases hs : s.pending with
    | nil => exact ⟨s, rfl, h, .refl _⟩
    | cons p pending =>
      have hwaits : ∀ q ∈ p :: pending, Waits keys s.map q := hs ▸ h.waits
      obtain ⟨m', entries', slots', hinsert, htable', hmap', hevolves, hdeleted⟩ :=
        (hwaits p List.mem_cons_self).insertAbsent hkeys htable (hfits p (by simp [hs])) value
      refine ⟨⟨m', pending⟩, ?_, ⟨⟨entries', slots', htable', ?_⟩, rfl, fun q hq => ?_⟩,
        hevolves.later hdeleted⟩
      · simp [hinsert]
      · rw [hmap', hmap]
        rfl
      · exact (hwaits q (List.mem_cons_of_mem _ hq)).evolves hevolves
  | ifAbsentThrows =>
    refine ⟨{ s with pending := s.pending.tail }, rfl, ⟨h.table, ?_, fun p hp => ?_⟩, .refl _⟩
    · rw [FiniteMap.call, ← h.pending, List.map_tail]
    · exact h.waits p (List.mem_of_mem_tail hp)
  | remove key =>
    obtain ⟨m', entries', slots', hremove, htable', hmap', hevolves, hlater⟩ :=
      htable.remove hkeys key
    refine ⟨{ s with map := m' }, ?_, ?_, hlater⟩
    · rw [Machine.call, hremove, hmap]
      rfl
    · rw [FiniteMap.call, ← hmap, ← hmap']
      exact h.of_evolves htable' hevolves
  | clear =>
    obtain ⟨m', entries', slots', hclear, htable', hmap', hevolves, hdeleted⟩ := htable.clear
    refine ⟨{ s with map := m' }, ?_, ?_, hevolves.later hdeleted⟩
    · rw [Machine.call, hclear]
      rfl
    · rw [FiniteMap.call, ← hmap']
      exact h.of_evolves htable' hevolves

/-- All calls of a sequence fit. -/
def AllFit (keys : KeyEquality K) : Machine K V → List (Call K V) → Prop
  | _, [] => True
  | s, c :: calls => c.Fits keys s ∧ ∀ s' outcome, s.call keys c = some (s', outcome) →
    AllFit keys s' calls

/-- **Run**: a sequence of calls does what it does on the finite map. -/
theorem Refines.run (hkeys : keys.Lawful) (h : Refines keys s a) (calls : List (Call K V))
    (hfit : AllFit keys s calls) :
    ∃ s', s.run keys calls = some (s', (a.run keys calls).2) ∧
      Refines keys s' (a.run keys calls).1 ∧
      Later s.map s'.map := by
  induction calls generalizing s a with
  | nil => exact ⟨s, rfl, h, .refl _⟩
  | cons c calls ih =>
    obtain ⟨s₁, hcall, h1, hlater⟩ := h.call hkeys c hfit.1
    obtain ⟨s', hrun, h', hlater'⟩ := ih h1 (hfit.2 s₁ _ hcall)
    refine ⟨s', ?_, h', hlater.trans hlater'⟩
    rw [run, hcall]
    simp only [bind_eq_bind, bind_some, hrun]
    rfl

/-- **The index**: one pair is unused, and the others are deleted or have the hash pattern of a key
and the number of its entry, in different ones of 32 bits. -/
structure WellIndexed (keys : KeyEquality K) (m : LinkedHashMap K V) : Prop where
  unused : unusedPair ∈ m.index
  pairs : ∀ pair ∈ m.index, pair = unusedPair ∨ pair = deletedPair ∨ ∃ j key pattern,
    m.data[2 * j]? = some (.key key) ∧
      pattern = hashPattern (keys.hashCode key) m.hashMask m.index.length ∧
      pair = pattern ||| j ∧ pattern &&& j = 0 ∧ pattern ||| j < 2 ^ 32

/-- A table has an unused slot and well-packed pairs. -/
theorem Table.wellIndexed (h : Table keys m entries slots) : WellIndexed keys m where
  unused := by
    obtain ⟨i, -, hi⟩ := exists_free h.numFree_pos
    rw [h.index_eq]
    exact List.mem_map.mpr ⟨.free, List.mem_of_getElem? hi, rfl⟩
  pairs pair hpair := by
    obtain ⟨i, hi⟩ := List.mem_iff_getElem?.mp hpair
    rw [h.getElem?_index, map_eq_some_iff] at hi
    obtain ⟨x, hx, rfl⟩ := hi
    cases x with
    | free => exact .inl rfl
    | deleted => exact .inr (.inl rfl)
    | used e =>
      obtain ⟨v, hentry⟩ := h.entry_of_used hx
      obtain ⟨p, -, hp, hindex, -, hj⟩ := h.exists_size (getElem?_eq_some_iff.mp hentry).1
      have hmask := h.mask
      rw [hindex] at hmask
      refine .inr (.inr ⟨e.1, e.2, _, (h.getElem?_data hentry).1, rfl, rfl, ?_, ?_⟩)
      · rw [hindex, hashPattern_eq]
        exact mul_two_pow_and _ hj
      · rw [hindex, hashPattern_eq, mul_two_pow_or _ hj]
        exact pair_lt hmask hp _ hj

/-- **The linked hash map is a finite map in order of insertion**, for every equivalence that hash
codes are compatible with and every program whose calls do not make the index outgrow pairs of 32
bits: every call returns what it returns for the finite map, and the index stays as it should be. -/
theorem linkedHashMap_correct (keys : KeyEquality K) (hkeys : keys.Lawful) (calls : List (Call K V))
    (hfit : AllFit keys initial calls) :
    ∃ s : Machine K V, run keys initial calls =
        some (s, (FiniteMap.run keys FiniteMap.initial calls).2) ∧
      WellIndexed keys s.map := by
  obtain ⟨s, hrun, hrefines, -⟩ := refines_initial.run hkeys calls hfit
  obtain ⟨entries, slots, htable, -⟩ := hrefines.table
  exact ⟨s, hrun, htable.wellIndexed⟩

/-- Integers as keys. -/
def intKeys : KeyEquality ℕ where
  hashCode n := BitVec.ofNat 64 n
  equals a b := a == b
  has63BitSmis := true

/-- Integers as keys meet the laws. -/
theorem intKeys_lawful : intKeys.Lawful where
  refl a := beq_self_eq_true a
  symm a b h := by rw [beq_iff_eq.mp h]; exact beq_self_eq_true b
  trans a b c h h' := by rw [beq_iff_eq.mp h]; exact h'
  hash a b h := by rw [beq_iff_eq.mp h]

/-- Calls fit one after another. -/
theorem allFit_cons {s s' : Machine K V} {c : Call K V} {outcome : Outcome K V}
    {calls : List (Call K V)} (hcall : s.call keys c = some (s', outcome)) (hfits : c.Fits keys s)
    (hrest : AllFit keys s' calls) : AllFit keys s (c :: calls) := by
  refine ⟨hfits, fun s₁ outcome₁ hcall₁ => ?_⟩
  cases hcall.symm.trans hcall₁
  exact hrest

/-- An index below the limit has room for every key. -/
theorem hasRoomFor_of_lt {m : LinkedHashMap K V} (h : m.index.length < 2 ^ 32) (key : K) :
    m.HasRoomFor keys key := fun _ houtgrows => absurd houtgrows.1 (not_le.mpr h)

/-- Five entries, one of them deleted, make the list of data grow. -/
theorem linkedHashMap_correct_set :
    ∃ s : Machine ℕ ℕ, run intKeys initial
        [.set 1 10, .set 2 20, .remove 1, .set 3 30, .set 9 40, .set 1 50, .set 2 60, .keys] =
        some (s, [.done, .done, .value (some (.value 10)), .done, .done, .done, .done,
          .list [.key 2, .key 3, .key 9, .key 1]]) ∧ WellIndexed intKeys s.map :=
  linkedHashMap_correct intKeys intKeys_lawful _ <|
    allFit_cons rfl (hasRoomFor_of_lt (by decide) _) <|
    allFit_cons rfl (hasRoomFor_of_lt (by decide) _) <| allFit_cons rfl trivial <|
    allFit_cons rfl (hasRoomFor_of_lt (by decide) _) <|
    allFit_cons rfl (hasRoomFor_of_lt (by decide) _) <|
    allFit_cons rfl (hasRoomFor_of_lt (by decide) _) <|
    allFit_cons rfl (hasRoomFor_of_lt (by decide) _) <| allFit_cons rfl trivial trivial

end DartVm.CompactHash
