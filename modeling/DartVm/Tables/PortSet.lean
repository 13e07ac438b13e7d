import DartVm.Library.OpenAddressing
import DartVm.Library.Postcondition

/-! # Port sets

A model of `port_set.h`: a set of ports by open addressing with linear probing, where `kFreePort`
and `kDeletedPort` stand for unused slots.  `Run s held` says that some operations have made `s` of
a new set, and that `held` are the entries inserted and not deleted.

* `rehash_spec`: rehashing keeps the entries.
* `Run.inv`: the invariant of every run.
* `portSet_correct`: port sets are sets. -/

namespace DartVm.PortSets

open OpenAddressing Postcondition List

/-! ## Model -/

/-- `kFreePort`, also `ILLEGAL_PORT`. -/
def kFreePort : ℕ := 0

/-- `kDeletedPort`. -/
def kDeletedPort : ℕ := 3

/-- `PortSet::Entry` with the data of the class derived from it. -/
structure Entry (T : Type) where
  port : ℕ
  /-- What the derived class adds. -/
  data : T
deriving DecidableEq

variable {T : Type}

/-- The entry stands for a port, not for an unused slot. -/
def Entry.isLive (e : Entry T) : Bool := e.port != kFreePort && e.port != kDeletedPort

section Model

variable [Inhabited T]

/-- `T()`. -/
def Entry.free : Entry T := ⟨kFreePort, default⟩

/-- `T()` with the port of a deleted entry. -/
def Entry.deleted : Entry T := ⟨kDeletedPort, default⟩

/-- **Port set.** The capacity is the length of `map`. -/
structure PortSet (T : Type) where
  map : List (Entry T)
  used : ℤ
  deleted : ℤ

/-- `kInitialCapacity`. -/
def kInitialCapacity : ℕ := 8

/-- `PortSet::PortSet`. -/
def initial : PortSet T := ⟨List.replicate kInitialCapacity .free, 0, 0⟩

/-- Going from the slot of `port` on, the first one with `stop`. -/
def probe (map : List (Entry T)) (port : ℕ) (stop : Entry T → Bool) : Option ℕ :=
  loop (fun index => (index + 1) % map.length)
    (fun index => if map[index]?.any stop then some index else none) map.length
    (port % map.length)

/-- The index of the first live entry from `index` on, where `rest` begins. -/
def skip : List (Entry T) → ℕ → ℕ
  | [], index => index
  | e :: rest, index => if e.isLive then index else skip rest (index + 1)

/-- The entries that an iterator at `index` yields with `++`, until it meets `end()`. -/
def iterateFrom (map : List (Entry T)) : ℕ → ℕ → List (Entry T)
  | 0, _ => []
  | fuel + 1, index =>
    match map[index]? with
    | none => []
    | some e => e :: iterateFrom map fuel (skip (map.drop (index + 1)) (index + 1))

/-- The entries from `begin()` to `end()`. -/
def iterate (map : List (Entry T)) : List (Entry T) :=
  iterateFrom map (map.length + 1) (skip map 0)

/-- One iteration of the loop of `PortSet::Rehash`. -/
def rehashEntry (ports : List (Entry T)) (e : Entry T) : Option (List (Entry T)) := do
  let index ← probe ports e.port (·.port == kFreePort)
  some (ports.set index e)

/-- `Rehash`: the live entries go into a new array. -/
def rehash (s : PortSet T) (newCapacity : ℕ) : Option (PortSet T) := do
  let map ← (iterate s.map).foldlM rehashEntry (List.replicate newCapacity .free)
  some ⟨map, s.used, 0⟩

/-- `MaintainInvariants`: grows a set that is three quarters full and cleans one with many deleted
entries. -/
def maintainInvariants (s : PortSet T) : Option (PortSet T) :=
  let empty : ℤ := s.map.length - s.used - s.deleted
  if s.used > ((s.map.length / 4 * 3 : ℕ) : ℤ) then rehash s (s.map.length * 2)
  else if empty < s.deleted then rehash s s.map.length
  else some s

/-- `Insert`. -/
def insert (s : PortSet T) (e : Entry T) : Option (PortSet T) := do
  let index ← probe s.map e.port (!·.isLive)
  let wasDeleted := s.map[index]?.any (·.port == kDeletedPort)
  maintainInvariants
    ⟨s.map.set index e, s.used + 1, if wasDeleted then s.deleted - 1 else s.deleted⟩

/-- `Iterator::Delete` with the iterator at `index`. -/
def delete (s : PortSet T) (index : ℕ) : PortSet T :=
  ⟨s.map.set index .deleted, s.used - 1, s.deleted + 1⟩

/-- `Rebalance`. -/
def rebalance (s : PortSet T) : Option (PortSet T) := maintainInvariants s

/-- `PortSet::FindIndexOfPort`, `none` for -1. -/
def findIndexOfPort (s : PortSet T) (port : ℕ) : Option (Option ℕ) :=
  if port = kFreePort then some none
  else do
    let index ← probe s.map port fun e => e.port == kFreePort || e.port == port
    some (if s.map[index]?.any (·.port == kFreePort) then none else some index)

/-- **Reachable port sets**, with the entries that were inserted and not deleted. -/
inductive Run : PortSet T → List (Entry T) → Prop
  | initial : Run initial []
  /-- Inserting a port that is not in the set. -/
  | insert {s s' : PortSet T} {held : List (Entry T)} {e : Entry T} (hrun : Run s held)
      (hlive : e.isLive) (hfresh : ∀ x ∈ held, x.port ≠ e.port) (h : insert s e = some s') :
      Run s' (e :: held)
  /-- Deleting through an iterator at a live entry. -/
  | delete {s : PortSet T} {held rest : List (Entry T)} {e : Entry T} {index : ℕ}
      (hrun : Run s held) (hget : s.map[index]? = some e) (hlive : e.isLive)
      (hrest : held.Perm (e :: rest)) : Run (delete s index) rest
  | rebalance {s s' : PortSet T} {held : List (Entry T)} (hrun : Run s held)
      (h : rebalance s = some s') : Run s' held

end Model

/-! ## Iteration -/

variable {map : List (Entry T)} {e : Entry T} {index port : ℕ}

/-- The iterator skips entries that are not live. -/
theorem skip_eq (rest : List (Entry T)) (index : ℕ) :
    ∃ pre post, rest = pre ++ post ∧ skip rest index = index + pre.length ∧
      (∀ e ∈ pre, e.isLive = false) ∧ ∀ e ∈ post.head?, e.isLive := by
  induction rest generalizing index with
  | nil => exact ⟨[], [], rfl, rfl, by simp, by simp⟩
  | cons e rest ih =>
    rw [skip]
    split_ifs with hlive
    · exact ⟨[], e :: rest, rfl, rfl, by simp, by simpa using hlive⟩
    · obtain ⟨pre, post, rfl, hskip, hpre, hpost⟩ := ih (index + 1)
      refine ⟨e :: pre, post, rfl, by rw [length_cons]; omega, ?_, hpost⟩
      simpa [hlive] using hpre

/-- Iterating from an index visits the live entries from there on. -/
theorem iterateFrom_skip (map : List (Entry T)) (fuel index : ℕ) (hfuel : map.length < index + fuel)
    (hindex : index ≤ map.length) :
    iterateFrom map fuel (skip (map.drop index) index) = (map.drop index).filter (·.isLive) := by
  induction fuel generalizing index with
  | zero => omega
  | succ fuel ih =>
    obtain ⟨pre, post, hdrop, hskip, hpre, hpost⟩ := skip_eq (map.drop index) index
    have hnone : pre.filter (·.isLive) = [] := by
      simpa using hpre
    have hget : map[index + pre.length]? = post[0]? := by
      rw [← getElem?_drop, hdrop, getElem?_append_right (le_rfl), Nat.sub_self]
    have hlen : map.length - index = pre.length + post.length := by
      rw [← length_drop, hdrop, length_append]
    rw [hskip, iterateFrom, hget, hdrop, filter_append, hnone, nil_append]
    cases post with
    | nil => rfl
    | cons e post =>
      have hdrop' : map.drop (index + pre.length + 1) = post := by
        rw [add_assoc, ← drop_drop, hdrop]
        simp [drop_append]
      rw [length_cons] at hlen
      have hrest := ih (index + pre.length + 1) (by omega) (by omega)
      rw [hdrop'] at hrest
      have hlive : e.isLive := hpost e (by simp)
      simp only [getElem?_cons_zero, hdrop', hrest, filter_cons, hlive, if_true]

/-- **The iterator visits the live entries**, in their order. -/
theorem iterate_eq (map : List (Entry T)) : iterate map = map.filter (·.isLive) := by
  have h := iterateFrom_skip map (map.length + 1) 0 (by omega) (by omega)
  simpa [iterate] using h

/-! ## Probing -/

/-- The marks in the map. -/
def marks (T : Type) : Marks (Entry T) ℕ := ⟨Entry.port, kFreePort, kDeletedPort, by decide⟩

/-- Live entries have neither of the two marks. -/
theorem isLive_iff : e.isLive ↔ (marks T).IsLive e := by
  simp [Entry.isLive, Marks.IsLive, marks]

/-- A map that holds the entries `held`, each within reach of its port, and `d` deleted ones. -/
abbrev Holds (map held : List (Entry T)) (d : ℕ) : Prop :=
  (marks T).Table (fun e => linear map.length e.port) map.length map held d

variable {stop : Entry T → Bool} {held rest : List (Entry T)} {d j n : ℕ}

/-- The iterator visits what the set holds. -/
theorem iterate_perm (h : Holds map held d) : (iterate map).Perm held := by
  have hfilter : map.filter (·.isLive) = map.filter ((marks T).IsLive ·) :=
    filter_congr fun e _ => by rw [Bool.eq_iff_iff, decide_eq_true_iff, isLive_iff]
  rw [iterate_eq, hfilter]
  exact h.perm_filter

/-- Probing ends at the first entry that stops it. -/
theorem probe_eq (h : First map (linear map.length port) stop j e) :
    probe map port stop = some (linear map.length port j) :=
  (h.loop_eq (fun i => i) (linear_iterate map.length port) id).trans
    (congrArg some (linear_iterate ..))

/-- Probing ends if there is an entry that stops it. -/
theorem exists_probe (port : ℕ) (stop : Entry T → Bool) (he : e ∈ map) (hstop : stop e) :
    ∃ j x, First map (linear map.length port) stop j x :=
  exists_first (linear_complete map.length port) he hstop

/-- The entry goes to a mark where the probe for its port has stopped. -/
theorem Holds.set (h : (marks T).Table (fun e => linear n e.port) n map held d)
    {x : Entry T} (hfirst : First map (linear map.length e.port) stop j x)
    (hmark : x.isLive = false)
    (hlive : e.isLive) (hstop : ∀ x : Entry T, x.port = kFreePort → stop x) :
    ∃ d', (marks T).Table (fun e => linear n e.port) n (map.set (linear map.length e.port j) e)
        (e :: held) d' ∧ d' + (if x.port = kDeletedPort then 1 else 0) = d := by
  refine h.insert hfirst.get (fun hx => ?_) (isLive_iff.mp hlive) ?_
  · rw [isLive_iff.mpr hx] at hmark
    cases hmark
  · have hreach := Marks.reaches_of_first (M := marks T) hfirst hstop le_rfl
    rwa [h.length_eq] at hreach ⊢

/-- A search for a port ends at its entry or, if the map has none, at a free one. -/
theorem Holds.find (h : Holds map held d) (hports : (held.map Entry.port).Nodup)
    (hroom : held.length + d < map.length) (hport : port ≠ kFreePort)
    (hport' : port ≠ kDeletedPort) :
    ∃ index x, probe map port (fun e => e.port == kFreePort || e.port == port) = some index ∧
      map[index]? = some x ∧ (∀ e ∈ held, e.port = port → x = e) ∧
      ((∀ e ∈ held, e.port ≠ port) → x.port = kFreePort) := by
  obtain ⟨free, hmem, hfree⟩ := h.exists_free hroom
  obtain ⟨j, x, hfirst⟩ := exists_probe port (fun e => e.port == kFreePort || e.port == port) hmem
    (Bool.or_eq_true_iff.mpr (.inl (beq_iff_eq.mpr hfree)))
  refine ⟨_, x, probe_eq hfirst, hfirst.get, ?_⟩
  have hcases := h.search hfirst (fun a => a.port = port) (fun a => ?_) fun a _ ha => by rw [ha]
  · rcases hcases with ⟨hxfree, hnone⟩ | ⟨-, hxmem, rfl⟩
    · exact ⟨fun e he heport => absurd heport (hnone e he), fun _ => hxfree⟩
    · exact ⟨fun e he heport => inj_on_of_nodup_map hports hxmem he heport.symm,
        fun hnone => absurd rfl (hnone x hxmem)⟩
  · -- An entry with the port is live.
    rw [Bool.or_eq_true_iff, beq_iff_eq, beq_iff_eq]
    refine or_congr Iff.rfl ⟨fun ha => ⟨⟨?_, ?_⟩, ha⟩, fun ha => ha.2⟩
    · exact fun hfree => hport (ha.symm.trans hfree)
    · exact fun hdeleted => hport' (ha.symm.trans hdeleted)

/-! ## Rehashing -/

/-- One iteration of the loop puts the entry into the first free slot of its path. -/
theorem rehashEntry_spec {abort : Prop}
    (h : (marks T).Table (fun e => linear n e.port) n map held 0) (hlive : e.isLive)
    (hroom : ¬abort → held.length < n) :
    Returns abort (rehashEntry map e) fun map' =>
      (marks T).Table (fun e => linear n e.port) n map' (e :: held) 0 := by
  unfold rehashEntry
  cases hprobe : probe map e.port (·.port == kFreePort) with
  | none =>
    by_contra habort
    obtain ⟨free, hmem, hfree⟩ := h.exists_free (hroom habort)
    obtain ⟨j, x, hfirst⟩ := exists_probe e.port (·.port == kFreePort) hmem (beq_iff_eq.mpr hfree)
    cases hprobe.symm.trans (probe_eq hfirst)
  | some index =>
    obtain ⟨j, x, hfirst, rfl⟩ :=
      exists_first_of_loop (fun i => i) (linear_iterate map.length e.port) hprobe
    have hx : x.port = kFreePort := beq_iff_eq.mp hfirst.stops
    obtain ⟨d', htable, hd'⟩ := Holds.set h hfirst (by simp [Entry.isLive, hx]) hlive
      fun x hx => beq_iff_eq.mpr hx
    obtain rfl : d' = 0 := by omega
    rw [linear_iterate]
    exact htable

section Rehash

variable [Inhabited T]

/-- **Rehashing** keeps all entries, at any capacity.  It ends if there is room for them. -/
theorem rehash_spec {s : PortSet T} (h : Holds s.map held d) (newCapacity : ℕ) :
    Returns (newCapacity < held.length) (rehash s newCapacity) fun s' =>
      s'.map.length = newCapacity ∧ Holds s'.map held 0 ∧ s'.used = s.used ∧ s'.deleted = 0 := by
  have hperm := iterate_perm h
  have hlength := hperm.length_eq
  have hfold : Returns (newCapacity < held.length)
      ((iterate s.map).foldlM rehashEntry (replicate newCapacity .free))
      fun map => (marks T).Table (fun e => linear newCapacity e.port) newCapacity map
        (iterate s.map).reverse 0 := by
    refine returns_foldlM_done (fun done map => (marks T).Table (fun e => linear newCapacity e.port)
      newCapacity map done 0) (Marks.Table.replicate _ _ newCapacity rfl) ?_
    intro done e rest map hsplit htable
    have hmem : e ∈ held := hperm.mem_iff.mp (by rw [hsplit]; simp)
    refine rehashEntry_spec htable (isLive_iff.mpr (h.mem_iff.mp hmem).2) fun hroom => ?_
    rw [hsplit, length_append, length_reverse, length_cons] at hlength
    omega
  refine hfold.bind fun map htable => ?_
  refine ⟨htable.length_eq, ?_, rfl, rfl⟩
  have hheld := htable.of_perm ((reverse_perm _).trans hperm)
  rwa [← htable.length_eq] at hheld

/-! ## Runs -/

/-- The invariant that operations break before they call `maintainInvariants`. -/
structure Counted (s : PortSet T) (held : List (Entry T)) (d : ℕ) : Prop where
  holds : Holds s.map held d
  ports : (held.map Entry.port).Nodup
  used : s.used = held.length
  deleted : s.deleted = d
  four_dvd : 4 ∣ s.map.length
  pos : 0 < s.map.length

/-- **Invariant of port sets.** The load is at most three quarters and a slot is free. -/
structure Inv (s : PortSet T) (held : List (Entry T)) (d : ℕ) : Prop extends Counted s held d where
  load : held.length ≤ s.map.length / 4 * 3
  free : held.length + d < s.map.length

variable {s s' : PortSet T}

/-- Rehashing at a capacity that the entries fill by three quarters at most. -/
theorem Counted.rehash (h : Counted s held d) {newCapacity : ℕ} (hdvd : 4 ∣ newCapacity)
    (hpos : 0 < newCapacity) (hload : held.length ≤ newCapacity / 4 * 3) :
    ∃ s', rehash s newCapacity = some s' ∧ ∃ d, Inv s' held d := by
  have hspec := (rehash_spec h.holds newCapacity).mono_abort fun hroom => (by omega : False)
  obtain ⟨s', hrehash, rfl, hholds, hused, hdeleted⟩ := hspec.exists_eq_some
  exact ⟨s', hrehash, 0, ⟨hholds, h.ports, hused.trans h.used, hdeleted, hdvd, hpos⟩,
    hload, by omega⟩

/-- `MaintainInvariants` restores the room of the set. -/
theorem Counted.maintainInvariants (h : Counted s held d) :
    ∃ s', maintainInvariants s = some s' ∧ ∃ d, Inv s' held d := by
  have hcount := h.holds.count
  have hdvd := h.four_dvd
  have hpos := h.pos
  have hused := h.used
  have hdeleted := h.deleted
  unfold PortSets.maintainInvariants
  by_cases hgrow : s.used > ((s.map.length / 4 * 3 : ℕ) : ℤ)
  · simp only [if_pos hgrow]
    exact h.rehash (by omega) (by omega) (by omega)
  by_cases hflush : (s.map.length : ℤ) - s.used - s.deleted < s.deleted
  · simp only [if_neg hgrow, if_pos hflush]
    exact h.rehash hdvd hpos (by omega)
  · simp only [if_neg hgrow, if_neg hflush]
    -- Either no slot is deleted, or there are as many free ones.
    exact ⟨s, rfl, d, h, by omega, by omega⟩

/-- The initial set is empty. -/
theorem inv_initial : Inv (initial : PortSet T) [] 0 := by
  refine ⟨⟨Marks.Table.replicate _ _ _ rfl, nodup_nil, rfl, rfl, ?_, ?_⟩, Nat.zero_le _, ?_⟩
  · simp [initial, kInitialCapacity]
  · simp [initial, kInitialCapacity]
  · exact Nat.zero_lt_succ 7

/-- Inserting adds a port that is not in the set. -/
theorem Inv.insert (h : Inv s held d) (hlive : e.isLive) (hfresh : ∀ x ∈ held, x.port ≠ e.port) :
    ∃ s', insert s e = some s' ∧ ∃ d, Inv s' (e :: held) d := by
  obtain ⟨free, hmem, hfree⟩ := h.holds.exists_free h.free
  have hstop : ∀ x : Entry T, x.port = kFreePort → !x.isLive :=
    fun x hx => by simp [Entry.isLive, hx]
  obtain ⟨j, x, hfirst⟩ := exists_probe e.port (fun e => !e.isLive) hmem (hstop free hfree)
  obtain ⟨d', htable, hd'⟩ := Holds.set h.holds hfirst (by simpa using hfirst.stops) hlive hstop
  have hcounted : Counted ⟨s.map.set (linear s.map.length e.port j) e, s.used + 1,
      if s.map[linear s.map.length e.port j]?.any (·.port == kDeletedPort) then s.deleted - 1
        else s.deleted⟩ (e :: held) d' := by
    have hold := h.deleted
    refine ⟨?_, ?_, ?_, ?_, ?_, ?_⟩
    · simpa only [Holds, length_set] using htable
    · rw [map_cons, nodup_cons]
      refine ⟨fun hport => ?_, h.ports⟩
      obtain ⟨x, hx, hxe⟩ := mem_map.mp hport
      exact hfresh x hx hxe
    · rw [h.used]
      rfl
    · simp only [hfirst.get, Option.any_some, beq_iff_eq]
      split_ifs at hd' ⊢ <;> omega
    · rw [length_set]
      exact h.four_dvd
    · rw [length_set]
      exact h.pos
  rw [PortSets.insert, probe_eq hfirst]
  exact hcounted.maintainInvariants

/-- Deleting takes an entry out of the set. -/
theorem Inv.delete (h : Inv s held d) {index : ℕ} (hget : s.map[index]? = some e) (hlive : e.isLive)
    (hrest : held.Perm (e :: rest)) : Inv (delete s index) rest (d + 1) := by
  have hholds := (h.holds.of_perm hrest).delete (e := Entry.deleted) hget (isLive_iff.mp hlive) rfl
  have hlength : held.length = rest.length + 1 := by rw [hrest.length_eq, length_cons]
  have hused := h.used
  have hdeleted := h.deleted
  have hload := h.load
  have hfree := h.free
  have hmap : (PortSets.delete s index).map.length = s.map.length := length_set
  refine ⟨⟨?_, ((hrest.map Entry.port).nodup_iff.mp h.ports).of_cons, ?_, ?_, ?_, ?_⟩, ?_, ?_⟩
  · rwa [Holds, hmap]
  · simp only [PortSets.delete]
    omega
  · simp only [PortSets.delete]
    omega
  · exact hmap ▸ h.four_dvd
  · exact hmap ▸ h.pos
  · rw [hmap]
    omega
  · rw [hmap]
    omega

/-- **Run lemma.** The invariant holds in every reachable port set. -/
theorem Run.inv (h : Run s held) : ∃ d, Inv s held d := by
  induction h with
  | initial => exact ⟨0, inv_initial⟩
  | insert _ hlive hfresh hs ih =>
    obtain ⟨d, ih⟩ := ih
    obtain ⟨s'', hs'', hinv⟩ := ih.insert hlive hfresh
    rwa [Option.some.inj (hs.symm.trans hs'')]
  | delete _ hget hlive hrest ih =>
    obtain ⟨d, ih⟩ := ih
    exact ⟨d + 1, ih.delete hget hlive hrest⟩
  | rebalance _ hs ih =>
    obtain ⟨d, ih⟩ := ih
    obtain ⟨s'', hs'', hinv⟩ := ih.toCounted.maintainInvariants
    rwa [Option.some.inj (hs.symm.trans hs'')]

/-! ## Correctness -/

/-- The set holds each entry of `held` once, and its counters count its slots. -/
def IsExact (s : PortSet T) (held : List (Entry T)) : Prop :=
  (iterate s.map).Perm held ∧ (held.map Entry.port).Nodup ∧
    s.used = s.map.countP (·.isLive) ∧ s.deleted = s.map.countP (·.port == kDeletedPort)

omit [Inhabited T] in
/-- The counters agree with the entries. -/
theorem isExact_of_holds (h : Holds s.map held d) (hports : (held.map Entry.port).Nodup)
    (hused : s.used = held.length) (hdeleted : s.deleted = d) : IsExact s held := by
  refine ⟨iterate_perm h, hports, ?_, ?_⟩
  · rw [hused, countP_eq_length_filter, ← iterate_eq, (iterate_perm h).length_eq]
  · rw [hdeleted, ← h.countP_deleted]
    rfl

/-- **Port sets are correct.** In every run the set holds the entries inserted and not deleted, once
each, with the right counters and a free slot, and every operation ends. Rehashing at any capacity
keeps the entries, and ends if they have room. -/
theorem portSet_correct (h : Run s held) :
    IsExact s held ∧ (∃ e ∈ s.map, e.port = kFreePort) ∧
    (∀ port, port ≠ kFreePort → port ≠ kDeletedPort →
      ∃ found, findIndexOfPort s port = some found ∧
        (∀ e ∈ held, e.port = port → ∃ i, found = some i ∧ s.map[i]? = some e) ∧
        ((∀ e ∈ held, e.port ≠ port) → found = none)) ∧
    (∀ e, e.isLive → (∀ x ∈ held, x.port ≠ e.port) →
      ∃ s', insert s e = some s' ∧ Run s' (e :: held)) ∧
    (∃ s', rebalance s = some s' ∧ Run s' held) ∧
    (∀ newCapacity s', rehash s newCapacity = some s' →
      s'.map.length = newCapacity ∧ IsExact s' held) ∧
    ∀ newCapacity, held.length ≤ newCapacity → ∃ s', rehash s newCapacity = some s' := by
  obtain ⟨d, hinv⟩ := h.inv
  refine ⟨isExact_of_holds hinv.holds hinv.ports hinv.used hinv.deleted,
    hinv.holds.exists_free hinv.free, ?_, ?_, ?_, ?_, fun newCapacity hroom => ?_⟩
  · intro port hport hport'
    obtain ⟨index, x, hprobe, hx, hsome, hnone⟩ :=
      hinv.holds.find hinv.ports hinv.free hport hport'
    refine ⟨if x.port = kFreePort then none else some index, ?_, ?_, ?_⟩
    · rw [findIndexOfPort, if_neg hport, hprobe]
      simp [hx]
    · intro e he heport
      obtain rfl := hsome e he heport
      exact ⟨index, if_neg (heport ▸ hport), hx⟩
    · exact fun hnot => if_pos (hnone hnot)
  · intro e hlive hfresh
    obtain ⟨s', hs', -⟩ := hinv.insert hlive hfresh
    exact ⟨s', hs', h.insert hlive hfresh hs'⟩
  · obtain ⟨s', hs', -⟩ := hinv.toCounted.maintainInvariants
    exact ⟨s', hs', h.rebalance hs'⟩
  · intro newCapacity s' hrehash
    obtain ⟨hlen, hholds, hused, hdeleted⟩ :=
      (rehash_spec hinv.holds newCapacity).of_eq_some hrehash
    exact ⟨hlen, isExact_of_holds hholds hinv.ports (hused.trans hinv.used) hdeleted⟩
  · have hspec := (rehash_spec hinv.holds newCapacity).mono_abort fun hless =>
      (absurd hless (not_lt.mpr hroom) : False)
    obtain ⟨s', hs', -⟩ := hspec.exists_eq_some
    exact ⟨s', hs'⟩

end Rehash

/-- Two ports of one slot: the second stays within reach when the first is deleted. -/
theorem portSet_correct_collision :
    ∃ s : PortSet Unit, Run s [⟨13, ()⟩] ∧ IsExact s [⟨13, ()⟩] := by
  have hfirst : Run _ [⟨5, ()⟩] :=
    Run.initial.insert (by decide) (fun x hx => absurd hx not_mem_nil) rfl
  have hsecond : Run _ [⟨13, ()⟩, ⟨5, ()⟩] := hfirst.insert (by decide) (by decide) rfl
  have hdelete : Run (delete _ 5) [⟨13, ()⟩] :=
    hsecond.delete rfl (by decide) (List.Perm.swap ..)
  exact ⟨_, hdelete, (portSet_correct hdelete).1⟩

end DartVm.PortSets
