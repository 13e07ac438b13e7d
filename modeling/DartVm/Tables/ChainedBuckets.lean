import Mathlib.Algebra.Group.Nat.Defs
import DartVm.Library.ListUpdate
import DartVm.Tables.ChainedHashMap

/-! # Buckets of a chained hash map

`Rep trait s buckets others free` says which pairs and cells the buckets of `s` have, and that every
cell of `lists` is in one bucket, on the free list or one of `others`, and only there.  The cells
that `Resize` has not moved yet are the others.

* `Rep`: who has which cell.
* `Rep.update`: one bucket changes.
* `Rep.insertBounded`, `Rep.remove_cases`, `Rep.lookup_eq`: the operations on a bucket. -/

namespace DartVm.ChainedHashMaps

open LinkedCells ListUpdate List Option Prod
open scoped List

variable {P K V : Type} {trait : KeyValueTrait P K V} [DecidableEq V]

/-! ## Buckets -/

/-- **Bucket**: its first pair and the cells of its chain, if it is not empty. -/
abbrev Bucket (P : Type) := Option (P × List (ℕ × P))

namespace Bucket

/-- The pairs of the bucket. -/
def pairs : Bucket P → List P
  | none => []
  | some (p, l) => p :: l.map Prod.snd

/-- The indices of the cells of the bucket. -/
def cells : Bucket P → List ℕ
  | none => []
  | some (_, l) => l.map Prod.fst

end Bucket

/-- The bucket that begins with the element `c` of `array`. -/
def IsBucket (trait : KeyValueTrait P K V) (lists : List (Cell P)) (c : Cell P) : Bucket P → Prop
  | none => hasNoValue trait c.item
  | some (p, l) => c.item = p ∧ (∀ q ∈ p :: l.map Prod.snd, hasNoValue trait q = false) ∧
    Linked lists c.next l

variable {s s' : ChainedHashMap P} {lists lists' : List (Cell P)} {c c' : Cell P}
  {b b' : Bucket P} {buckets : List (Bucket P)} {others others' : List ℕ}
  {free free' : List (ℕ × P)} {pos i : ℕ} {kv p : P} {key : K}

theorem IsBucket.congr (h : IsBucket trait lists c b)
    (heq : ∀ i ∈ b.cells, lists'[i]? = lists[i]?) : IsBucket trait lists' c b := by
  rcases b with _ | ⟨p, l⟩
  · exact h
  · obtain ⟨hitem, hvalue, hlinked⟩ := h
    exact ⟨hitem, hvalue, hlinked.congr fun x hx => heq x.1 (mem_map_of_mem hx)⟩

/-- The empty buckets are those whose first item has no value. -/
theorem IsBucket.eq_none_iff (h : IsBucket trait lists c b) :
    hasNoValue trait c.item = true ↔ b = none := by
  rcases b with _ | ⟨p, l⟩
  · exact ⟨fun _ => rfl, fun _ => h⟩
  · simp [h.1, h.2.1 p (mem_cons_self ..)]

/-! ## Representation -/

/-- **Representation.** The buckets of the map, and who has which cell of `lists`. -/
structure Rep (trait : KeyValueTrait P K V) (s : ChainedHashMap P) (buckets : List (Bucket P))
    (others : List ℕ) (free : List (ℕ × P)) : Prop where
  length_eq : buckets.length = s.array.length
  isBucket : ∀ (pos : ℕ) c b, s.array[pos]? = some c → buckets[pos]? = some b →
    IsBucket trait s.lists c b
  linked_free : Linked s.lists s.freeListHead free
  perm : (buckets.flatMap Bucket.cells ++ (others ++ free.map Prod.fst)).Perm
    (List.range s.lists.length)

section

variable (h : Rep trait s buckets others free) (hb : buckets[pos]? = some b)
include h hb

omit hb in
/-- No cell is in two buckets, in the free list or among the others at once. -/
theorem Rep.nodup : (buckets.flatMap Bucket.cells ++ (others ++ free.map fst)).Nodup :=
  h.perm.nodup_iff.mpr nodup_range

omit hb in
/-- Every position of the array has its bucket. -/
theorem Rep.exists_bucket (hpos : pos < s.array.length) :
    ∃ c b, s.array[pos]? = some c ∧ buckets[pos]? = some b ∧ IsBucket trait s.lists c b := by
  have hpos' : pos < buckets.length := h.length_eq ▸ hpos
  exact ⟨_, _, getElem?_eq_getElem hpos, getElem?_eq_getElem hpos',
    h.isBucket pos _ _ (getElem?_eq_getElem hpos) (getElem?_eq_getElem hpos')⟩

/-- The first cell of a bucket. -/
theorem Rep.exists_cell : ∃ c, s.array[pos]? = some c ∧ IsBucket trait s.lists c b := by
  have hpos : pos < s.array.length := h.length_eq ▸ (List.getElem?_eq_some_iff.mp hb).1
  exact ⟨_, getElem?_eq_getElem hpos, h.isBucket pos _ b (getElem?_eq_getElem hpos) hb⟩

/-- The cells of a bucket exist. -/
theorem Rep.lt_of_mem_cells (hi : i ∈ b.cells) : i < s.lists.length :=
  mem_range.mp (h.perm.mem_iff.mp
    (mem_append_left _ (mem_flatMap.mpr ⟨b, mem_of_getElem? hb, hi⟩)))

omit hb in
/-- The array, bucket by bucket. -/
theorem Rep.forall₂ : List.Forall₂ (IsBucket trait s.lists) s.array buckets := by
  refine forall₂_iff_get.mpr ⟨h.length_eq.symm, fun i hi hi' => ?_⟩
  exact h.isBucket i _ _ (getElem?_eq_getElem hi) (getElem?_eq_getElem hi')

/-- The cells of one bucket, of the others and of the free list are different. -/
theorem Rep.nodup_bucket : (b.cells ++ (others ++ free.map fst)).Nodup := by
  obtain ⟨rest, hperm, -⟩ := flatMap_set_perm hb b Bucket.cells
  have hnodup := (hperm.append_right (others ++ free.map fst)).nodup_iff.mp h.nodup
  rw [append_assoc] at hnodup
  exact hnodup.sublist ((sublist_append_right ..).append_left _)

/-- Two buckets have no cell in common, nor with the others and the free list. -/
theorem Rep.not_mem_cells {pos' : ℕ} {b' : Bucket P} (hb' : buckets[pos']? = some b')
    (hne : pos' ≠ pos) (hi : i ∈ b'.cells) : i ∉ b.cells ∧ i ∉ others ∧ i ∉ free.map fst := by
  -- With `none` in place of `b`, the cell is still among those of the buckets.
  obtain ⟨rest, hperm, hset⟩ := flatMap_set_perm hb none Bucket.cells
  have hmem : i ∈ rest := by
    apply hset.mem_iff.mp
    refine mem_flatMap.mpr ⟨b', ?_, hi⟩
    apply mem_of_getElem? (i := pos')
    rw [getElem?_set_ne hne.symm]
    exact hb'
  have hnodup := (hperm.append_right (others ++ free.map fst)).nodup_iff.mp h.nodup
  rw [append_assoc, nodup_append] at hnodup
  obtain ⟨-, hrest, hdisjoint⟩ := hnodup
  have hnot := (nodup_append.mp hrest).2.2
  refine ⟨fun hcells => hdisjoint i hcells i (mem_append_left _ hmem) rfl, fun hothers => ?_,
    fun hfree => ?_⟩
  · exact hnot i hmem i (mem_append_left _ hothers) rfl
  · exact hnot i hmem i (mem_append_right _ hfree) rfl

/-- **Update of one bucket**: cells move between it, the others and the free list, and only their
contents change. -/
theorem Rep.update (harray : s'.array = s.array.set pos c')
    (hlen : s'.lists.length = s.lists.length)
    (hagree : ∀ i, i ∉ b.cells → i ∉ others → i ∉ free.map fst → s'.lists[i]? = s.lists[i]?)
    (hbucket : IsBucket trait s'.lists c' b') (hfree : Linked s'.lists s'.freeListHead free')
    (hperm : (b'.cells ++ (others' ++ free'.map fst)).Perm
      (b.cells ++ (others ++ free.map fst))) :
    Rep trait s' (buckets.set pos b') others' free' := by
  refine ⟨by simp [harray, h.length_eq], ?_, hfree, ?_⟩
  · intro pos₁ c₁ b₁ hc1 hb1
    rw [harray] at hc1
    by_cases hne : pos₁ = pos
    · subst hne
      have hlt : pos₁ < buckets.length := (List.getElem?_eq_some_iff.mp hb).1
      rw [getElem?_set_self (h.length_eq ▸ hlt)] at hc1
      rw [getElem?_set_self hlt] at hb1
      rw [← some.inj hc1, ← some.inj hb1]
      exact hbucket
    · rw [getElem?_set_ne (symm hne)] at hc1 hb1
      apply (h.isBucket pos₁ c₁ b₁ hc1 hb1).congr
      intro i hi
      obtain ⟨hcells, hothers, hfree⟩ := h.not_mem_cells hb hb1 hne hi
      exact hagree i hcells hothers hfree
  · obtain ⟨rest, hold, hnew⟩ := flatMap_set_perm hb b' Bucket.cells
    rw [hlen]
    refine List.Perm.trans ?_ h.perm
    calc
      _ ~ rest ++ (b'.cells ++ (others' ++ free'.map fst)) := by
        refine (hnew.append_right _).trans ?_
        rw [append_assoc]
        exact perm_append_comm_assoc ..
      _ ~ rest ++ (b.cells ++ (others ++ free.map fst)) := hperm.append_left rest
      _ ~ _ := by
        refine List.Perm.trans ?_ (hold.append_right _).symm
        rw [append_assoc]
        exact perm_append_comm_assoc ..

end

/-! ## The free list -/

/-- A cell that is in no bucket can be given back to the free list. -/
theorem Rep.freeOther (h : Rep trait s buckets (i :: others) free) (hc : s.lists[i]? = some c) :
    Rep trait { s with lists := s.lists.set i { c with next := s.freeListHead },
                       freeListHead := some i } buckets others ((i, c.item) :: free) := by
  have hnodup := h.nodup
  rw [cons_append, nodup_middle, nodup_cons, mem_append, mem_append, not_or, not_or] at hnodup
  obtain ⟨⟨hbuckets, hothers, hfree⟩, -⟩ := hnodup
  refine ⟨h.length_eq, ?_, ?_, ?_⟩
  · intro pos c₁ b hc1 hb
    apply (h.isBucket pos c₁ b hc1 hb).congr
    intro j hj
    rw [getElem?_set_ne]
    rintro rfl
    exact hbuckets (mem_flatMap.mpr ⟨b, mem_of_getElem? hb, hj⟩)
  · refine ⟨rfl, s.freeListHead, ?_, h.linked_free.set hfree⟩
    exact getElem?_set_self (List.getElem?_eq_some_iff.mp hc).1
  · rw [length_set]
    refine List.Perm.trans ?_ h.perm
    exact perm_middle.append_left _

omit [DecidableEq V] in
/-- Giving back cells one after another extends the free list. -/
theorem foldl_freeCell (indices : List ℕ) (s : ChainedHashMap P) (free : List (ℕ × P))
    (hfree : Linked s.lists s.freeListHead free) (hlt : ∀ i ∈ indices, i < s.lists.length)
    (hnodup : (indices ++ free.map fst).Nodup) :
    ∃ free', Linked (indices.foldl freeCell s).lists (indices.foldl freeCell s).freeListHead free' ∧
      (free'.map fst).Perm (indices ++ free.map fst) ∧
      (∀ j ∉ indices, (indices.foldl freeCell s).lists[j]? = s.lists[j]?) ∧
      (indices.foldl freeCell s).lists.length = s.lists.length ∧
      (indices.foldl freeCell s).array = s.array ∧
      (indices.foldl freeCell s).count = s.count := by
  induction indices generalizing s free with
  | nil => exact ⟨free, hfree, Perm.refl _, fun _ _ => rfl, rfl, rfl, rfl⟩
  | cons i indices ih =>
    rw [forall_mem_cons] at hlt
    rw [cons_append, nodup_cons, mem_append, not_or] at hnodup
    have hc : s.lists[i]? = some s.lists[i] := getElem?_eq_getElem hlt.1
    have hstep : (freeCell s i).lists = s.lists.set i { s.lists[i] with next := s.freeListHead } :=
      modify_eq_set hc _
    have hlinked : Linked (freeCell s i).lists (freeCell s i).freeListHead
        ((i, s.lists[i].item) :: free) := by
      refine ⟨rfl, s.freeListHead, ?_, ?_⟩
      · rw [hstep, getElem?_set_self hlt.1]
      · rw [hstep]
        exact hfree.set hnodup.1.2
    have hlen : (freeCell s i).lists.length = s.lists.length := by rw [hstep, length_set]
    obtain ⟨free', hfree', hperm, hagree, hlen', harray, hcount⟩ :=
      ih (freeCell s i) ((i, s.lists[i].item) :: free) hlinked (hlen ▸ hlt.2)
        (perm_middle.nodup_iff.mpr (nodup_cons.mpr
          ⟨fun hmem => (mem_append.mp hmem).elim hnodup.1.1 hnodup.1.2, hnodup.2⟩))
    refine ⟨free', hfree', hperm.trans perm_middle, fun j hj => ?_, hlen'.trans hlen, harray,
      hcount⟩
    rw [mem_cons, not_or] at hj
    rw [foldl_cons, hagree j hj.2, hstep, getElem?_set_ne (symm hj.1)]

section

variable (h : Rep trait s buckets others free)
include h

/-- **`ResizeLists`** adds cells to the free list and keeps all others. -/
theorem Rep.resizeLists {newSize : ℕ} (hsize : s.lists.length < newSize) :
    ∃ free', Rep trait (resizeLists trait s newSize) buckets others free' ∧ free' ≠ [] ∧
      (∀ j < s.lists.length, (resizeLists trait s newSize).lists[j]? = s.lists[j]?) ∧
      (resizeLists trait s newSize).array = s.array ∧
      (resizeLists trait s newSize).count = s.count ∧
      (resizeLists trait s newSize).lists.length = newSize := by
  have hfree : ∀ j ∈ free.map fst, j < s.lists.length := by
    intro j hj
    exact mem_range.mp (h.perm.mem_iff.mp (by simp [hj]))
  have hnodupFree : (free.map fst).Nodup :=
    (nodup_append.mp (nodup_append.mp h.nodup).2.1).2.1
  obtain ⟨free', hfree', hperm, hagree, hlen, harray, hcount⟩ := foldl_freeCell
    (range' s.lists.length (newSize - s.lists.length))
    { s with lists := s.lists ++ replicate (newSize - s.lists.length) trait.element } free
    (h.linked_free.append _) (by simp)
    (by
      rw [nodup_append]
      refine ⟨nodup_range', hnodupFree, ?_⟩
      rintro a ha _ hb rfl
      have hge := mem_range'_1.mp ha
      have hlt := hfree a hb
      omega)
  -- Only new cells are written, so all old chains stay.
  have hold : ∀ j < s.lists.length, (ChainedHashMaps.resizeLists trait s newSize).lists[j]? =
      s.lists[j]? := by
    intro j hj
    refine (hagree j fun hmem => ?_).trans (getElem?_append_left hj)
    have hge := mem_range'_1.mp hmem
    omega
  have hlen' : (ChainedHashMaps.resizeLists trait s newSize).lists.length = newSize := by
    rw [ChainedHashMaps.resizeLists, hlen, length_append, length_replicate]
    omega
  refine ⟨free', ⟨h.length_eq.trans (congrArg length harray.symm), ?_, hfree', ?_⟩, ?_, hold,
    harray, hcount, hlen'⟩
  · intro pos c b hc hb
    rw [ChainedHashMaps.resizeLists, harray] at hc
    apply (h.isBucket pos c b hc hb).congr
    exact fun j hj => hold j (h.lt_of_mem_cells hb hj)
  · rw [hlen', show newSize = s.lists.length + (newSize - s.lists.length) by omega,
      range_eq_range', ← range'_append_1, ← range_eq_range', Nat.zero_add]
    calc
      _ ~ buckets.flatMap Bucket.cells ++ (others ++
            (free.map fst ++ List.range' s.lists.length (newSize - s.lists.length))) :=
        ((hperm.trans perm_append_comm).append_left others).append_left _
      _ ~ _ := by
        rw [← append_assoc others, ← append_assoc]
        exact h.perm.append_right _
  · rintro rfl
    have hlength := hperm.length_eq
    simp at hlength
    omega

/-- Making sure of a free cell leaves one and disturbs no other. -/
theorem Rep.ensureFreeCell (hpos : 0 < s.lists.length) :
    ∃ free', Rep trait (ensureFreeCell trait s) buckets others free' ∧ free' ≠ [] ∧
      (∀ j < s.lists.length, (ensureFreeCell trait s).lists[j]? = s.lists[j]?) ∧
      (ensureFreeCell trait s).array = s.array ∧ (ensureFreeCell trait s).count = s.count ∧
      s.lists.length ≤ (ensureFreeCell trait s).lists.length := by
  unfold ChainedHashMaps.ensureFreeCell
  split_ifs with hhead
  · obtain ⟨free', hrep, hne, hagree, harray, hcount, hlen⟩ :=
      h.resizeLists (show s.lists.length < s.lists.length * 2 by omega)
    exact ⟨free', hrep, hne, hagree, harray, hcount, by omega⟩
  · refine ⟨free, h, ?_, fun _ _ => rfl, rfl, rfl, le_rfl⟩
    rintro rfl
    exact hhead h.linked_free

/-- The other cells exist. -/
theorem Rep.lt_of_mem_others (hi : i ∈ others) : i < s.lists.length :=
  mem_range.mp (h.perm.mem_iff.mp (mem_append_right _ (mem_append_left _ hi)))

/-! ## Insertion -/

/-- **`Insert`** puts the pair into its bucket: first if it is empty, else into a free cell behind
the first pair. -/
theorem Rep.insertBounded (hlists : 0 < s.lists.length) (hpos : pos < s.array.length)
    (hbound : bound s.array.length (trait.hashcode (trait.keyOf kv)) = pos)
    (hkv : hasNoValue trait kv = false) :
    ∃ s' b b' free', insertBounded trait s kv = some s' ∧ buckets[pos]? = some b ∧
      Rep trait s' (buckets.set pos b') others free' ∧ b'.pairs.Perm (kv :: b.pairs) ∧
      s'.array.length = s.array.length ∧ s'.count = s.count + 1 ∧ 0 < s'.lists.length ∧
      ∀ i ∈ others, s'.lists[i]? = s.lists[i]? := by
  obtain ⟨c, b, hc, hb, hbucket⟩ := h.exists_bucket hpos
  unfold ChainedHashMaps.insertBounded
  simp only [hbound, hc, bind_eq_bind, bind_some]
  cases hempty : hasNoValue trait c.item with
  | true =>
    obtain rfl := hbucket.eq_none_iff.mp hempty
    refine ⟨_, none, some (kv, []), free, if_pos rfl, hb, ?_, Perm.refl _,
      length_set, rfl, hlists, fun _ _ => rfl⟩
    exact h.update hb rfl rfl (fun _ _ _ _ => rfl) ⟨rfl, by simpa using hkv, rfl⟩ h.linked_free
      (Perm.refl _)
  | false =>
    rcases b with _ | ⟨p, l⟩
    · exact absurd (hbucket.eq_none_iff.mpr rfl) (by simp [hempty])
    -- The map in which a cell is free.
    obtain ⟨free₁, hrep, hne, hagree, harray, hcount, hlen⟩ :=
      Rep.ensureFreeCell (s := { s with count := s.count + 1 })
        ⟨h.length_eq, h.isBucket, h.linked_free, h.perm⟩ hlists
    generalize ChainedHashMaps.ensureFreeCell trait { s with count := s.count + 1 } = s₁ at *
    rcases free₁ with _ | ⟨⟨n, q⟩, free₁⟩
    · exact absurd rfl hne
    obtain ⟨hhead, next, hget, hfree⟩ := hrep.linked_free
    have hlt : n < s₁.lists.length := (List.getElem?_eq_some_iff.mp hget).1
    have hnodup := hrep.nodup_bucket hb
    have hbucket1 := hrep.isBucket pos c _ (by rw [harray]; exact hc) hb
    simp only [Bool.false_eq_true, if_false, hhead, hget, bind_some]
    rw [map_cons, ← append_assoc, nodup_middle, nodup_cons, mem_append,
      mem_append, not_or, not_or] at hnodup
    obtain ⟨⟨⟨hcells, hothers⟩, hfreeNot⟩, -⟩ := hnodup
    refine ⟨_, _, some (p, (n, kv) :: l), free₁, rfl, hb, ?_, List.Perm.swap .., ?_, ?_, ?_, ?_⟩
    · refine hrep.update hb rfl length_set (fun i _ _ hi => ?_)
        ⟨hbucket1.1, ?_, rfl, c.next, ?_, ?_⟩ (hfree.set hfreeNot) ?_
      · rw [getElem?_set_ne]
        rintro rfl
        exact hi (mem_cons_self ..)
      · obtain ⟨hp, hl⟩ := forall_mem_cons.mp hbucket1.2.1
        exact forall_mem_cons.mpr ⟨hp, forall_mem_cons.mpr ⟨hkv, hl⟩⟩
      · exact getElem?_set_self hlt
      · exact hbucket1.2.2.set hcells
      · rw [← append_assoc, ← append_assoc]
        exact perm_middle.symm
    · rw [length_set, harray]
    · exact hcount
    · rw [length_set]
      omega
    · intro i hi
      have hne : n ≠ i := fun heq => hothers (heq ▸ hi)
      rw [getElem?_set_ne hne]
      exact hagree i (h.lt_of_mem_others hi)

/-! ## Lookup -/

/-- A bucket has no more cells than there are, which is the fuel of a lookup. -/
theorem Rep.length_cells_le (hb : buckets[pos]? = some b) : b.cells.length ≤ s.lists.length := by
  obtain ⟨rest, hperm, -⟩ := flatMap_set_perm hb b Bucket.cells
  have hlength := h.perm.length_eq
  simp only [length_append, hperm.length_eq, length_range] at hlength
  omega

end

/-- Where `Lookup` finds the key in the bucket. -/
def placeIn (trait : KeyValueTrait P K V) (pos : ℕ) (key : K) : Bucket P → Option Place
  | none => none
  | some (p, l) => if trait.isKeyEqual p key then some (.array pos)
    else (l.find? fun x => trait.isKeyEqual x.2 key).map fun x => .lists x.1

section

variable (h : Rep trait s buckets others free)
  (hbound : bound s.array.length (trait.hashcode key) = pos) (hb : buckets[pos]? = some b)
include h hbound hb

/-- **A lookup finds the place of the key in its bucket.** -/
theorem Rep.lookupPlace_eq : lookupPlace trait s key = some (placeIn trait pos key b) := by
  obtain ⟨c, hc, hbucket⟩ := h.exists_cell hb
  have hlength := h.length_cells_le hb
  unfold lookupPlace
  simp only [hbound, hc, bind_eq_bind, bind_some]
  rcases b with _ | ⟨p, l⟩
  · rw [if_pos (hbucket.eq_none_iff.mpr rfl)]
    rfl
  obtain ⟨hitem, hvalue, hlinked⟩ := hbucket
  rw [hitem, hvalue p (mem_cons_self ..), if_neg (by simp), placeIn]
  split_ifs with hequal
  · rfl
  · rw [hlinked.find_eq (by simpa [Bucket.cells] using hlength) fun p => trait.isKeyEqual p key]
    rw [bind_some, Option.map_map]
    rfl

/-- **`Lookup`** returns the first pair of the bucket that has the key. -/
theorem Rep.lookup_eq : lookup trait s key = some (b.pairs.find? (trait.isKeyEqual · key)) := by
  obtain ⟨c, hc, hbucket⟩ := h.exists_cell hb
  rw [lookup, h.lookupPlace_eq hbound hb]
  rcases b with _ | ⟨p, l⟩
  · rfl
  obtain ⟨hitem, hvalue, hlinked⟩ := hbucket
  rw [placeIn, Bucket.pairs, find?_cons]
  cases hequal : trait.isKeyEqual p key with
  | true => simp [pairAt, hc, hitem]
  | false =>
    simp only [Bool.false_eq_true, if_false, find?_map]
    cases hfind : l.find? fun x => trait.isKeyEqual x.2 key with
    | none =>
      have hnone : l.find? ((fun x => trait.isKeyEqual x key) ∘ snd) = none := hfind
      rw [hnone]
      rfl
    | some x =>
      have hsome : l.find? ((fun x => trait.isKeyEqual x key) ∘ snd) = some x := hfind
      obtain ⟨l₁, l₂, rfl⟩ := append_of_mem (mem_of_find?_eq_some hfind)
      obtain ⟨next, hget, -⟩ := hlinked.getElem?
      rw [hsome]
      simp [pairAt, hget]

omit hbound in
/-- **`Update`** of a key that is in the bucket. -/
theorem Rep.setPair (hkv : hasNoValue trait kv = false) {place : Place}
    (hplace : placeIn trait pos key b = some place) :
    ∃ b' old rest, Rep trait (setPair s kv place) (buckets.set pos b') others free ∧
      trait.isKeyEqual old key ∧ b.pairs.Perm (old :: rest) ∧ b'.pairs.Perm (kv :: rest) := by
  obtain ⟨c, hc, hbucket⟩ := h.exists_cell hb
  have hnodup := h.nodup_bucket hb
  rcases b with _ | ⟨p, l⟩
  · exact absurd hplace (by simp [placeIn])
  obtain ⟨hitem, hvalue, hlinked⟩ := hbucket
  rw [placeIn] at hplace
  split_ifs at hplace with hequal
  · cases hplace
    refine ⟨some (kv, l), p, l.map snd, ?_, hequal, Perm.refl _, Perm.refl _⟩
    rw [ChainedHashMaps.setPair, modify_eq_set hc]
    refine h.update hb rfl rfl (fun _ _ _ _ => rfl) ⟨rfl, ?_, hlinked⟩ h.linked_free
      (Perm.refl _)
    exact forall_mem_cons.mpr ⟨hkv, (forall_mem_cons.mp hvalue).2⟩
  · obtain ⟨⟨i, q⟩, hfind, rfl⟩ := map_eq_some_iff.mp hplace
    obtain ⟨l₁, l₂, rfl⟩ := append_of_mem (mem_of_find?_eq_some hfind)
    obtain ⟨next, hget, -⟩ := hlinked.getElem?
    have hcells : ((l₁ ++ (i, q) :: l₂).map fst).Nodup := (nodup_append.mp hnodup).1
    have hi : i ∈ (l₁ ++ (i, q) :: l₂).map fst := by simp
    have hfree : i ∉ free.map fst := fun hmem =>
      (nodup_append.mp hnodup).2.2 i hi i (mem_append_right _ hmem) rfl
    have hperm : ∀ r : P, (Bucket.pairs (some (p, l₁ ++ (i, r) :: l₂))).Perm
        (r :: p :: (l₁.map snd ++ l₂.map snd)) := by
      intro r
      simp only [Bucket.pairs, map_append, map_cons]
      exact (perm_middle.cons p).trans (List.Perm.swap ..)
    refine ⟨some (p, l₁ ++ (i, kv) :: l₂), q, _, ?_, by simpa using find?_some hfind, hperm q,
      hperm kv⟩
    rw [ChainedHashMaps.setPair, modify_eq_set hget]
    refine h.update hb (set_eq_self hc).symm length_set (fun j hj _ _ => ?_)
      ⟨hitem, ?_, hlinked.setItem hcells hget⟩ (h.linked_free.set hfree) (by simp [Bucket.cells])
    · exact getElem?_set_ne (by rintro rfl; exact hj hi)
    · intro r hr
      rcases mem_cons.mp ((hperm kv).mem_iff.mp hr) with rfl | hr
      · exact hkv
      · exact hvalue r ((hperm q).mem_iff.mpr (mem_cons_of_mem _ hr))

end

/-! ## Removal -/

omit [DecidableEq V] in
/-- The last loop of `Remove` finds the key's cell and the one before it. -/
theorem findWithPrevious_cases (trait : KeyValueTrait P K V) (key : K) {fuel : ℕ}
    (previous : ℕ × P) {current : ℕ} {q : P} {rest : List (ℕ × P)}
    (h : Linked lists (some current) ((current, q) :: rest)) (hfuel : rest.length < fuel) :
    (findWithPrevious trait lists key fuel previous.1 current = some none ∧
      ∀ x ∈ (current, q) :: rest, trait.isKeyEqual x.2 key = false) ∨
    ∃ l₁ x y l₂, previous :: (current, q) :: rest = l₁ ++ x :: y :: l₂ ∧
      findWithPrevious trait lists key fuel previous.1 current = some (some (x.1, y.1)) ∧
      trait.isKeyEqual y.2 key := by
  induction rest generalizing fuel previous current q with
  | nil =>
    obtain ⟨-, next, hget, hrest⟩ := h
    obtain ⟨fuel, rfl⟩ : ∃ n, fuel = n + 1 := ⟨fuel - 1, by simp at hfuel; omega⟩
    rw [findWithPrevious, hget]
    cases hequal : trait.isKeyEqual q key with
    | true => exact .inr ⟨[], previous, (current, q), [], rfl, by simp [hequal], hequal⟩
    | false =>
      rw [linked_nil.mp hrest]
      exact .inl ⟨by simp [hequal], by simpa using hequal⟩
  | cons x rest ih =>
    obtain ⟨-, next, hget, hrest⟩ := h
    obtain ⟨fuel, rfl⟩ : ∃ n, fuel = n + 1 := ⟨fuel - 1, by omega⟩
    rw [length_cons, Nat.add_lt_add_iff_right] at hfuel
    rw [findWithPrevious, hget]
    cases hequal : trait.isKeyEqual q key with
    | true =>
      exact .inr ⟨[], previous, (current, q), x :: rest, rfl, by simp [hequal], hequal⟩
    | false =>
      obtain rfl : next = some x.1 := hrest.1
      simp only [bind_eq_bind, bind_some, hequal, Bool.false_eq_true, if_false]
      rcases ih (current, q) hrest hfuel with ⟨hfind, hnone⟩ | ⟨l₁, y, z, l₂, heq, hfind, hz⟩
      · exact .inl ⟨hfind, forall_mem_cons.mpr ⟨hequal, hnone⟩⟩
      · exact .inr ⟨previous :: l₁, y, z, l₂, by rw [heq]; rfl, hfind, hz⟩

/-- Giving back a cell of a bucket leaves all others as they are. -/
theorem Rep.release (h : Rep trait s buckets others free) (hb : buckets[pos]? = some b)
    {s₁ : ChainedHashMap P} (harray : s₁.array = s.array.set pos c')
    (hhead : s₁.freeListHead = s.freeListHead) (hlen : s₁.lists.length = s.lists.length)
    (hagree : ∀ j ∉ b.cells, s₁.lists[j]? = s.lists[j]?)
    (hbucket : IsBucket trait s₁.lists c' b') (hcells : b.cells.Perm (i :: b'.cells)) :
    Rep trait (releaseCell trait s₁ i) (buckets.set pos b') others ((i, trait.pair) :: free) := by
  have hnodup := (hcells.append_right (others ++ free.map fst)).nodup_iff.mp
    (h.nodup_bucket hb)
  rw [cons_append, nodup_cons, mem_append, not_or, mem_append, not_or] at hnodup
  obtain ⟨⟨hcell, hother, hfree⟩, -⟩ := hnodup
  have hi : i ∈ b.cells := hcells.mem_iff.mpr (mem_cons_self ..)
  have hlt : i < s₁.lists.length := hlen ▸ h.lt_of_mem_cells hb hi
  refine h.update hb harray (length_set.trans hlen) (fun j hj _ _ => ?_) ?_
    ⟨rfl, s₁.freeListHead, getElem?_set_self hlt, ?_⟩ ?_
  · rw [releaseCell, getElem?_set_ne (by rintro rfl; exact hj hi)]
    exact hagree j hj
  · apply hbucket.congr
    intro j hj
    exact getElem?_set_ne (by rintro rfl; exact hcell hj)
  · rw [hhead]
    apply h.linked_free.congr
    intro x hx
    have hx' : x.1 ∈ free.map fst := List.mem_map_of_mem hx
    have hne : i ≠ x.1 := fun heq => hfree (heq ▸ hx')
    rw [releaseCell, getElem?_set_ne hne]
    apply hagree
    intro hmem
    exact (nodup_append.mp (h.nodup_bucket hb)).2.2 x.1 hmem x.1
      (mem_append_right _ hx') rfl
  · refine List.Perm.trans ?_ (hcells.append_right _).symm
    rw [← append_assoc, ← append_assoc]
    exact perm_middle

/-- **`Remove`** takes the first pair with the key out of its bucket. -/
theorem Rep.remove_cases (h : Rep trait s buckets others free)
    (hbound : bound s.array.length (trait.hashcode key) = pos) (hb : buckets[pos]? = some b) :
    (remove trait s key = some (false, s) ∧ ∀ p ∈ b.pairs, trait.isKeyEqual p key = false) ∨
    ∃ s' b' p free', remove trait s key = some (true, s') ∧
      Rep trait s' (buckets.set pos b') others free' ∧ trait.isKeyEqual p key ∧
      b.pairs.Perm (p :: b'.pairs) ∧ s'.array.length = s.array.length ∧
      s'.count = s.count - 1 ∧ s'.lists.length = s.lists.length := by
  obtain ⟨c, hc, hbucket⟩ := h.exists_cell hb
  have hlength := h.length_cells_le hb
  have hnodup := (nodup_append.mp (h.nodup_bucket hb)).1
  unfold ChainedHashMaps.remove
  simp only [hbound, hc, bind_eq_bind, bind_some]
  rcases b with _ | ⟨p, l⟩
  · rw [if_pos (hbucket.eq_none_iff.mpr rfl)]
    exact .inl ⟨rfl, by simp [Bucket.pairs]⟩
  obtain ⟨hitem, hvalue, hlinked⟩ := hbucket
  rw [hitem, hvalue p (mem_cons_self ..), if_neg (by simp)]
  cases hequal : trait.isKeyEqual p key with
  | true =>
    right
    rcases l with _ | ⟨⟨i, q⟩, l⟩
    · -- The only pair of the bucket.
      rw [linked_nil.mp hlinked]
      refine ⟨_, none, p, free, rfl, ?_, hequal, Perm.refl _, length_set, rfl, rfl⟩
      exact h.update hb rfl rfl (fun _ _ _ _ => rfl) (by simp [IsBucket, hasNoValue,
        KeyValueTrait.element]) h.linked_free (Perm.refl _)
    · -- The second pair becomes the first one.
      obtain ⟨hnext, next, hget, hrest⟩ := hlinked
      rw [hnext]
      simp only [hget, bind_some]
      refine ⟨_, some (q, l), p, (i, trait.pair) :: free, rfl, ?_, hequal, Perm.refl _,
        length_set, rfl,
        length_set⟩
      exact h.release hb rfl rfl rfl (fun _ _ => rfl)
        ⟨rfl, fun r hr => hvalue r (mem_cons_of_mem _ hr), hrest⟩ (Perm.refl _)
  | false =>
    rw [if_neg (by simp)]
    rcases l with _ | ⟨⟨i, q⟩, l⟩
    · rw [linked_nil.mp hlinked]
      exact .inl ⟨rfl, by simpa [Bucket.pairs] using hequal⟩
    obtain ⟨hnext, next, hget, hrest⟩ := id hlinked
    rw [hnext]
    simp only [hget, bind_some]
    cases hequal2 : trait.isKeyEqual q key with
    | true =>
      right
      refine ⟨_, some (p, l), q, (i, trait.pair) :: free, if_pos rfl, ?_, hequal2,
        List.Perm.swap .., length_set, rfl, length_set⟩
      refine h.release hb rfl rfl rfl (fun _ _ => rfl) ⟨rfl, ?_, hrest⟩ (Perm.refl _)
      obtain ⟨hp, hl⟩ := forall_mem_cons.mp hvalue
      exact forall_mem_cons.mpr ⟨hp, (forall_mem_cons.mp hl).2⟩
    | false =>
      rw [if_neg (by simp)]
      rcases l with _ | ⟨⟨j, r⟩, l⟩
      · rw [linked_nil.mp hrest]
        exact .inl ⟨rfl, by simp [Bucket.pairs, hequal, hequal2]⟩
      obtain rfl : next = some j := hrest.1
      have hfuel : l.length < s.lists.length := by
        simp only [Bucket.cells, length_map, length_cons] at hlength
        omega
      rcases findWithPrevious_cases trait key (i, q) hrest hfuel
        with ⟨hfind, hnone⟩ | ⟨l₁, ⟨a, u⟩, ⟨d, v⟩, l₂, heq, hfind, hv⟩
      · left
        refine ⟨by simp only [hfind, bind_some], ?_⟩
        intro r' hr'
        rw [Bucket.pairs, mem_cons, map_cons, mem_cons, List.mem_map] at hr'
        rcases hr' with rfl | rfl | ⟨x, hx, rfl⟩
        · exact hequal
        · exact hequal2
        · exact hnone x hx
      · right
        rw [heq] at hlinked hnodup hb hvalue ⊢
        obtain ⟨nextx, hgetx, -⟩ := hlinked.getElem?
        obtain ⟨nexty, hgety, -⟩ : ∃ next, s.lists[d]? = some ⟨v, next⟩ ∧
            Linked s.lists next l₂ := by
          have hlinked' : Linked s.lists c.next ((l₁ ++ [(a, u)]) ++ (d, v) :: l₂) := by
            simpa using hlinked
          exact hlinked'.getElem?
        have hpairs : (Bucket.pairs (some (p, l₁ ++ (a, u) :: (d, v) :: l₂))).Perm
            (v :: Bucket.pairs (some (p, l₁ ++ (a, u) :: l₂))) := by
          simp only [Bucket.pairs, map_append, map_cons]
          refine List.Perm.trans (List.Perm.cons p ?_) (List.Perm.swap ..)
          exact ((List.Perm.swap ..).append_left _).trans perm_middle
        have hcells : (Bucket.cells (some (p, l₁ ++ (a, u) :: (d, v) :: l₂))).Perm
            (d :: Bucket.cells (some (p, l₁ ++ (a, u) :: l₂))) := by
          simp only [Bucket.cells, map_append, map_cons]
          exact ((List.Perm.swap ..).append_left _).trans perm_middle
        simp only [hfind, hgety, bind_some]
        refine ⟨_, some (p, l₁ ++ (a, u) :: l₂), v, (d, trait.pair) :: free, rfl, ?_, hv, hpairs,
          rfl, rfl, ?_⟩
        · refine h.release hb (set_eq_self hc).symm rfl ?_ (fun k hk => ?_) ⟨hitem, ?_, ?_⟩ hcells
          · simp
          · rw [modify_eq_set hgetx, getElem?_set_ne]
            rintro rfl
            exact hk (by simp [Bucket.cells])
          · intro r' hr'
            exact hvalue r' (hpairs.mem_iff.mpr (mem_cons_of_mem _ hr'))
          · rw [modify_eq_set hgetx]
            exact hlinked.unlink hnodup hgety
        · simp [releaseCell]

end DartVm.ChainedHashMaps
