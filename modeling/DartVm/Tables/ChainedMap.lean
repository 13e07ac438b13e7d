import DartVm.Tables.ChainedBuckets

/-! # Chained hash maps are maps

`chainedHashMap_correct` is about every sequence of operations: each acts on one pair with the key.
If `Insert` is only called with new keys, the pairs are those of a finite map.

* `Inv.step`, `Inv.foldlM_step`: one operation, and any sequence of them.
* `Inv.iterate`: the iterator.
* `chainedHashMap_correct`: chained hash maps are maps.
* `insert_twice`: what `Insert` does to a key that is there. -/

namespace DartVm.ChainedHashMaps

open LinkedCells ListUpdate List Option Bucket
open scoped List

variable {P K V : Type} {trait : KeyValueTrait P K V} [DecidableEq V]
  {s s' : ChainedHashMap P} {buckets : List (Bucket P)} {b b' : Bucket P} {others : List ℕ}
  {free : List (ℕ × P)} {entries : List P} {kv p : P} {key : K} {pos n : ℕ} {bs : List (Bucket P)}
  {l : List (ℕ × P)} {start : Option ℕ} {cs : List (Cell P)} {entries' : List P} {k : ℕ}

/-! ## What a map holds -/

/-- Positions lie in the array. -/
theorem bound_lt (hsize : n = 2 ^ k) (hash : BitVec 64) : bound n hash < n := by
  rw [bound, hsize, Nat.and_two_pow_sub_one_eq_mod]
  exact Nat.mod_lt _ (Nat.two_pow_pos k)

/-- Every pair is in the bucket of its hash. -/
def Hashed (trait : KeyValueTrait P K V) (n : ℕ) (buckets : List (Bucket P)) : Prop :=
  ∀ (pos : ℕ) b, buckets[pos]? = some b → ∀ p ∈ b.pairs,
    bound n (trait.hashcode (trait.keyOf p)) = pos

omit [DecidableEq V] in
/-- A bucket may be replaced by one whose pairs belong to the same position. -/
theorem Hashed.set (h : Hashed trait n buckets)
    (hb' : ∀ p ∈ b'.pairs, bound n (trait.hashcode (trait.keyOf p)) = pos) :
    Hashed trait n (buckets.set pos b') := by
  intro pos₁ b₁ hb1
  rw [getElem?_set] at hb1
  split_ifs at hb1 with hpos hlt
  · rw [← some.inj hb1, ← hpos]
    exact hb'
  · exact h pos₁ b₁ hb1

/-- **Contents.** The map has these pairs; cells neither in it nor free are among `others`. -/
structure Holds (trait : KeyValueTrait P K V) (s : ChainedHashMap P) (others : List ℕ)
    (entries : List P) : Prop where
  size : ∃ k, s.array.length = 2 ^ k
  lists_pos : 0 < s.lists.length
  count : s.count = entries.length
  exists_rep : ∃ buckets free, Rep trait s buckets others free ∧
    Hashed trait s.array.length buckets ∧ (buckets.flatMap Bucket.pairs).Perm entries

theorem Holds.perm (h : Holds trait s others entries)
    (hperm : entries.Perm entries') : Holds trait s others entries' := by
  obtain ⟨buckets, free, hrep, hhashed, hentries⟩ := h.exists_rep
  exact ⟨h.size, h.lists_pos, hperm.length_eq ▸ h.count, buckets, free, hrep, hhashed,
    hentries.trans hperm⟩

/-- Inserting into an array that is large enough adds the pair. -/
theorem Holds.insertBounded (h : Holds trait s others entries) (hkv : hasNoValue trait kv = false) :
    ∃ s', insertBounded trait s kv = some s' ∧ Holds trait s' others (kv :: entries) ∧
      s'.array.length = s.array.length ∧ ∀ i ∈ others, s'.lists[i]? = s.lists[i]? := by
  obtain ⟨buckets, free, hrep, hhashed, hentries⟩ := h.exists_rep
  obtain ⟨k, hsize⟩ := h.size
  obtain ⟨s', b, b', free', hinsert, hb, hrep', hpairs, hlen, hcount, hlists, hagree⟩ :=
    hrep.insertBounded h.lists_pos (bound_lt hsize _) rfl hkv
  refine ⟨s', hinsert, ⟨⟨k, hlen.trans hsize⟩, hlists, ?_, _, free', hrep', ?_, ?_⟩, hlen, hagree⟩
  · rw [hcount, h.count]
    rfl
  · rw [hlen]
    apply hhashed.set
    intro p hp
    rcases mem_cons.mp (hpairs.mem_iff.mp hp) with rfl | hp
    · rfl
    · exact hhashed _ b hb p hp
  · obtain ⟨rest, hold, hnew⟩ := flatMap_set_perm hb b' pairs
    calc
      _ ~ b'.pairs ++ rest := hnew
      _ ~ kv :: (b.pairs ++ rest) := hpairs.append_right rest
      _ ~ kv :: entries := (hold.symm.trans hentries).cons kv

/-! ## Resizing -/

/-- Below the load limit no resize takes place. -/
theorem insertDepth_eq (depth : ℕ) (hcount : s.count < s.array.length / 2) (kv : P) :
    insertDepth trait (depth + 1) s kv = insertBounded trait s kv := by
  rw [insertDepth, if_neg (show ¬s.count ≥ s.array.length / 2 from Int.not_le.mpr hcount)]
  rfl

/-- The inner loop of `Resize` moves a chain: its pairs are inserted, its cells are freed. -/
theorem Holds.moveChain {fuel : ℕ}
    (h : Holds trait s (l.map Prod.fst ++ others) entries) (hlinked : Linked s.lists start l)
    (hfuel : l.length ≤ fuel) (hvalue : ∀ x ∈ l, hasNoValue trait x.2 = false)
    (hroom : ((entries.length + l.length : ℕ) : ℤ) ≤ s.array.length / 2) :
    ∃ s', moveChain (insertDepth trait 1) fuel s start = some s' ∧
      Holds trait s' others (l.map Prod.snd ++ entries) ∧ s'.array.length = s.array.length ∧
      ∀ i ∈ others, s'.lists[i]? = s.lists[i]? := by
  induction l generalizing s entries fuel start with
  | nil =>
    rw [linked_nil.mp hlinked]
    refine ⟨s, ?_, h, rfl, fun _ _ => rfl⟩
    cases fuel <;> rfl
  | cons x l ih =>
    obtain ⟨i, p⟩ := x
    obtain ⟨rfl, next, hget, hrest⟩ := hlinked
    obtain ⟨fuel, rfl⟩ : ∃ m, fuel = m + 1 := ⟨fuel - 1, by simp at hfuel; omega⟩
    rw [forall_mem_cons] at hvalue
    rw [length_cons] at hroom hfuel
    have hcount : s.count < s.array.length / 2 := by rw [h.count]; omega
    obtain ⟨s₁, hinsert, hholds1, hlen1, hagree1⟩ := h.insertBounded hvalue.1
    -- `Insert` has left the cells of the chain alone.
    have hget1 : s₁.lists[i]? = some ⟨p, next⟩ := (hagree1 i (by simp)).trans hget
    have hrest1 : Linked s₁.lists next l := hrest.congr fun y hy =>
      hagree1 y.1 (by simp [mem_map_of_mem hy])
    obtain ⟨buckets, free, hrep, hhashed, hentries⟩ := hholds1.exists_rep
    have hnodup := hrep.nodup
    have hrep2 := hrep.freeOther hget1
    have hholds2 : Holds trait { s₁ with lists := s₁.lists.set i ⟨p, s₁.freeListHead⟩,
                                         freeListHead := some i }
        (l.map Prod.fst ++ others) (p :: entries) :=
      ⟨hholds1.size, by simpa using hholds1.lists_pos, hholds1.count, buckets, _, hrep2, hhashed,
        hentries⟩
    have hne : ∀ j ∈ l.map Prod.fst ++ others, i ≠ j := by
      rintro j hj rfl
      exact (nodup_cons.mp (nodup_append.mp hnodup).2.1).1 (mem_append_left _ hj)
    obtain ⟨s', hmove, hholds, hlen, hagree⟩ := ih hholds2
      (hrest1.set fun hmem => hne i (mem_append_left _ hmem) rfl)
      (Nat.le_of_succ_le_succ hfuel) hvalue.2
      (by simp only [hlen1, length_cons]; omega)
    refine ⟨s', ?_, hholds.perm perm_middle, hlen.trans hlen1, fun j hj => ?_⟩
    · rw [ChainedHashMaps.moveChain, hget]
      simp only [bind_eq_bind, bind_some, insertDepth_eq 0 hcount, hinsert, hget1]
      exact hmove
    · rw [hagree j hj]
      rw [getElem?_set_ne (hne j (mem_append_right _ hj))]
      exact hagree1 j (mem_append_right _ hj)

/-- Moving a bucket to the new array adds its pairs and frees its cells. -/
theorem Holds.moveBucket {c : Cell P} (h : Holds trait s (b.cells ++ others) entries)
    (hbucket : IsBucket trait s.lists c b)
    (hroom : ((entries.length + b.pairs.length : ℕ) : ℤ) ≤ s.array.length / 2) :
    ∃ s', moveBucket trait (insertDepth trait 1) s c = some s' ∧
      Holds trait s' others (b.pairs ++ entries) ∧ s'.array.length = s.array.length ∧
      ∀ i ∈ others, s'.lists[i]? = s.lists[i]? := by
  unfold ChainedHashMaps.moveBucket
  rcases b with _ | ⟨p, l⟩
  · exact ⟨s, if_pos (hbucket.eq_none_iff.mpr rfl), h, rfl, fun _ _ => rfl⟩
  obtain ⟨hitem, hvalue, hlinked⟩ := hbucket
  rw [forall_mem_cons] at hvalue
  rw [pairs, length_cons, length_map] at hroom
  obtain ⟨buckets, free, hrep, -⟩ := h.exists_rep
  have hfuel : l.length ≤ s.lists.length := by
    have hlength := hrep.perm.length_eq
    simp only [cells, length_append, length_map, length_range] at hlength
    omega
  obtain ⟨s₁, hmove, hholds1, hlen1, hagree1⟩ := h.moveChain hlinked hfuel
    (fun x hx => hvalue.2 x.2 (mem_map_of_mem hx)) (by omega)
  have hcount : s₁.count < s₁.array.length / 2 := by
    rw [hholds1.count, length_append, length_map]
    omega
  obtain ⟨s₂, hinsert, hholds2, hlen2, hagree2⟩ := hholds1.insertBounded hvalue.1
  refine ⟨s₂, ?_, hholds2, hlen2.trans hlen1, fun i hi => (hagree2 i hi).trans (hagree1 i hi)⟩
  rw [hitem, hvalue.1, hmove]
  simp only [bind_eq_bind, bind_some, insertDepth_eq 0 hcount]
  exact hinsert

/-- **A resize** moves all buckets. -/
theorem Holds.foldlM_moveBucket
    (h : Holds trait s (bs.flatMap cells) entries)
    (hbuckets : List.Forall₂ (IsBucket trait s.lists) cs bs)
    (hroom : ((entries.length + (bs.flatMap pairs).length : ℕ) : ℤ) ≤ s.array.length / 2) :
    ∃ s', cs.foldlM (ChainedHashMaps.moveBucket trait (insertDepth trait 1)) s = some s' ∧
      Holds trait s' [] (bs.flatMap pairs ++ entries) ∧
      s'.array.length = s.array.length := by
  induction bs generalizing cs s entries with
  | nil =>
    rw [forall₂_nil_right_iff.mp hbuckets]
    exact ⟨s, rfl, h, rfl⟩
  | cons b bs ih =>
    obtain ⟨c, cs, hbucket, hrest, rfl⟩ := forall₂_cons_right_iff.mp hbuckets
    rw [flatMap_cons, length_append] at hroom
    obtain ⟨s₁, hmove, hholds1, hlen1, hagree1⟩ := h.moveBucket hbucket (by omega)
    have hrest1 : List.Forall₂ (IsBucket trait s₁.lists) cs bs := by
      refine forall₂_iff_get.mpr ⟨hrest.length_eq, fun i hi hi' => ?_⟩
      apply (forall₂_iff_get.mp hrest).2 i hi hi' |>.congr
      intro j hj
      exact hagree1 j (mem_flatMap.mpr ⟨_, get_mem .., hj⟩)
    obtain ⟨s', hfold, hholds, hlen⟩ := ih hholds1 hrest1 (by
      rw [length_append]
      omega)
    refine ⟨s', ?_, hholds.perm ?_, hlen.trans hlen1⟩
    · rw [foldlM_cons, hmove]
      exact hfold
    · rw [flatMap_cons, append_assoc]
      exact perm_append_comm_assoc ..

theorem holds_nil (harray : s.array = List.replicate n trait.element) (hsize : n = 2 ^ k)
    (hcount : s.count = 0) (hlists : 0 < s.lists.length)
    (hfree : Linked s.lists s.freeListHead free)
    (hperm : (others ++ free.map Prod.fst).Perm (List.range s.lists.length)) :
    Holds trait s others [] := by
  have hnone : ∀ b ∈ replicate n (none : Bucket P), b = none := fun b hb =>
    (mem_replicate.mp hb).2
  refine ⟨⟨k, by simpa [harray] using hsize⟩, hlists, hcount, replicate n none, free,
    ⟨by simp [harray], ?_, hfree, ?_⟩, ?_, ?_⟩
  · intro pos c b hc hb
    rw [harray] at hc
    obtain ⟨-, rfl⟩ := mem_replicate.mp (mem_of_getElem? hc)
    obtain rfl := hnone b (mem_of_getElem? hb)
    simp [IsBucket, hasNoValue, KeyValueTrait.element]
  · have hnil : (replicate n (none : Bucket P)).flatMap cells = [] :=
      flatMap_eq_nil_iff.mpr fun b hb => by rw [hnone b hb]; rfl
    rwa [hnil]
  · intro pos b hb
    obtain rfl := hnone b (mem_of_getElem? hb)
    simp [pairs]
  · rw [perm_nil, flatMap_eq_nil_iff]
    intro b hb
    rw [hnone b hb]
    rfl

/-- **`Resize`** keeps the pairs. -/
theorem Rep.resizeWith (hrep : Rep trait s buckets [] free) (hlists : 0 < s.lists.length)
    (hentries : (buckets.flatMap pairs).Perm entries) {newSize k : ℕ}
    (hsize : newSize = 2 ^ k) (hroom : (entries.length : ℤ) ≤ newSize / 2) :
    ∃ s', resizeWith trait (insertDepth trait 1) s newSize = some s' ∧
      Holds trait s' [] entries ∧ s'.array.length = newSize := by
  obtain ⟨free₁, hrep1, -, -, harray, -, hlen⟩ := hrep.ensureFreeCell hlists
  unfold ChainedHashMaps.resizeWith
  generalize ChainedHashMaps.ensureFreeCell trait s = s₁ at *
  -- The new array is empty, and the cells of the old buckets are left over.
  have hempty : Holds trait { s₁ with array := replicate newSize trait.element, count := 0 }
      (buckets.flatMap cells) [] :=
    holds_nil rfl hsize rfl (by dsimp only; omega) hrep1.linked_free (by simpa using hrep1.perm)
  obtain ⟨s', hfold, hholds, hlen'⟩ := hempty.foldlM_moveBucket hrep1.forall₂ (by
    rw [hentries.length_eq]
    simpa using hroom)
  exact ⟨s', hfold, (hholds.perm (by simpa using hentries)), by simpa using hlen'⟩

/-- **Invariant of chained hash maps.** -/
structure Inv (trait : KeyValueTrait P K V) (s : ChainedHashMap P) (entries : List P) : Prop where
  two_le : 2 ≤ s.array.length
  holds : Holds trait s [] entries
  half_full : (entries.length : ℤ) ≤ s.array.length / 2

/-- **`Insert`** adds the pair. -/
theorem Inv.insert (h : Inv trait s entries) (hkv : hasNoValue trait kv = false) :
    ∃ s', insert trait s kv = some s' ∧ Inv trait s' (kv :: entries) := by
  obtain ⟨htwo, h, hfull⟩ := h
  by_cases hcount : s.count < s.array.length / 2
  · obtain ⟨s', hinsert, hholds, hlen, -⟩ := h.insertBounded hkv
    refine ⟨s', (insertDepth_eq 1 hcount kv).trans hinsert, hlen ▸ htwo, hholds, ?_⟩
    have hc := h.count
    rw [length_cons]
    omega
  · obtain ⟨k, hsize⟩ := h.size
    obtain ⟨buckets, free, hrep, -, hentries⟩ := h.exists_rep
    obtain ⟨s₁, hresize, hholds1, hlen1⟩ := hrep.resizeWith h.lists_pos hentries
      (show s.array.length * 2 = 2 ^ (k + 1) by rw [hsize, Nat.pow_succ]) (by omega)
    obtain ⟨s', hinsert, hholds, hlen, -⟩ := hholds1.insertBounded hkv
    refine ⟨s', ?_, by omega, hholds, ?_⟩
    · rw [ChainedHashMaps.insert, insertDepth,
        if_pos (show s.count ≥ s.array.length / 2 from Int.not_lt.mp hcount), hresize]
      exact hinsert
    · rw [length_cons, hlen]
      omega

/-- A new map is empty. -/
theorem exists_inv_new (trait : KeyValueTrait P K V) :
    ∃ s, new trait = some s ∧ Inv trait s [] := by
  have hempty : Rep trait (⟨[], [], none, 0⟩ : ChainedHashMap P) [] [] [] :=
    ⟨rfl, by simp, rfl, by simp⟩
  obtain ⟨free, hrep, -, -, -, -, hlen⟩ :=
    hempty.resizeLists (show [].length < kInitialSize by simp [kInitialSize])
  obtain ⟨s, hs, hholds, hlen⟩ :=
    hrep.resizeWith (k := 4) (by rw [hlen]; decide) (.refl _) rfl (by simp)
  exact ⟨s, hs, by rw [hlen]; decide, hholds, by simp [hlen]⟩

/-! ## Operations on the pairs -/

/-- **Operations.** -/
inductive Op (P K : Type) where
  | insert (kv : P)
  | update (kv : P)
  | remove (key : K)
  | clear

/-- The assertion of `Insert` and `Update`. -/
def Op.Valid (trait : KeyValueTrait P K V) : Op P K → Prop
  | .insert kv | .update kv => hasNoValue trait kv = false
  | .remove _ | .clear => True

/-- The operation on the map. -/
def step (trait : KeyValueTrait P K V) (s : ChainedHashMap P) : Op P K → Option (ChainedHashMap P)
  | .insert kv => insert trait s kv
  | .update kv => update trait s kv
  | .remove key => (remove trait s key).map Prod.snd
  | .clear => some (clear trait s)

/-- **Sequences of operations** on a new map. -/
def run (trait : KeyValueTrait P K V) (ops : List (Op P K)) : Option (ChainedHashMap P) := do
  let s ← new trait
  ops.foldlM (step trait) s

omit [DecidableEq V] in
/-- A pair with the key, if there is one. -/
def Found (trait : KeyValueTrait P K V) (entries : List P) (key : K) : Option P → Prop
  | some p => p ∈ entries ∧ trait.isKeyEqual p key
  | none => ∀ p ∈ entries, trait.isKeyEqual p key = false

/-- **Steps of the pairs.** `Insert` adds the pair; `Update` and `Remove` act on one pair with the
key. -/
inductive Changes (trait : KeyValueTrait P K V) : Op P K → List P → List P → Prop
  | insert (kv : P) (entries : List P) : Changes trait (.insert kv) entries (kv :: entries)
  | add {kv : P} {entries : List P} (h : Found trait entries (trait.keyOf kv) none) :
      Changes trait (.update kv) entries (kv :: entries)
  | replace {kv old : P} {entries rest : List P} (hperm : entries.Perm (old :: rest))
      (hequal : trait.isKeyEqual old (trait.keyOf kv)) :
      Changes trait (.update kv) entries (kv :: rest)
  | absent {key : K} {entries : List P} (h : Found trait entries key none) :
      Changes trait (.remove key) entries entries
  | remove {key : K} {p : P} {entries rest : List P} (hperm : entries.Perm (p :: rest))
      (hequal : trait.isKeyEqual p key) : Changes trait (.remove key) entries rest
  | clear (entries : List P) : Changes trait .clear entries []

/-- All pairs with an equal key are in one bucket. -/
theorem Holds.exists_bucket (h : Holds trait s [] entries) (key : K) :
    ∃ buckets free b, Rep trait s buckets [] free ∧ Hashed trait s.array.length buckets ∧
      (buckets.flatMap pairs).Perm entries ∧
      buckets[bound s.array.length (trait.hashcode key)]? = some b ∧
      ∀ p, p ∈ entries ∧ trait.isKeyEqual p key ↔ p ∈ b.pairs ∧ trait.isKeyEqual p key := by
  obtain ⟨k, hsize⟩ := h.size
  obtain ⟨buckets, free, hrep, hhashed, hentries⟩ := h.exists_rep
  have hpos := bound_lt hsize (trait.hashcode key)
  obtain ⟨c, b, hc, hb, -⟩ := hrep.exists_bucket hpos
  refine ⟨buckets, free, b, hrep, hhashed, hentries, hb, fun p => and_congr_left fun hp => ?_⟩
  constructor
  · intro hmem
    obtain ⟨b', hb', hpb'⟩ := mem_flatMap.mp (hentries.mem_iff.mpr hmem)
    obtain ⟨pos', hpos'⟩ := mem_iff_getElem?.mp hb'
    -- The pair's hash is that of the key, so the pair is in this bucket.
    have hposEq := hhashed pos' b' hpos' p hpb'
    rw [trait.hashcode_eq _ _ hp] at hposEq
    subst hposEq
    rwa [some.inj (hb.symm.trans hpos')]
  · exact fun hmem => hentries.mem_iff.mp
      (mem_flatMap.mpr ⟨b, mem_of_getElem? hb, hmem⟩)

omit [DecidableEq V] in
/-- What is not found depends on the pairs with an equal key only. -/
theorem found_none_congr
    (h : ∀ p, p ∈ entries ∧ trait.isKeyEqual p key ↔ p ∈ entries' ∧ trait.isKeyEqual p key)
    (hnone : Found trait entries' key none) : Found trait entries key none := by
  intro p hp
  by_contra hequal
  have hp' := (h p).mp ⟨hp, by simpa using hequal⟩
  exact absurd hp'.2 (by simp [hnone p hp'.1])

/-- **`Lookup`** finds a pair with the key, if there is one. -/
theorem Inv.lookup (h : Inv trait s entries) (key : K) :
    ∃ found, lookup trait s key = some found ∧ Found trait entries key found := by
  obtain ⟨buckets, free, b, hrep, -, -, hb, hmem⟩ := h.holds.exists_bucket key
  refine ⟨_, hrep.lookup_eq rfl hb, ?_⟩
  cases hfind : b.pairs.find? (trait.isKeyEqual · key) with
  | some p =>
    have hequal : trait.isKeyEqual p key := by simpa using find?_some hfind
    exact (hmem p).mpr ⟨mem_of_find?_eq_some hfind, hequal⟩
  | none => exact found_none_congr hmem (by simpa [Found] using find?_eq_none.mp hfind)

/-- **`Remove`** takes a pair with the key out, and says whether there was one. -/
theorem Inv.remove (h : Inv trait s entries) (key : K) :
    (remove trait s key = some (false, s) ∧ Found trait entries key none) ∨
    ∃ s' p rest, remove trait s key = some (true, s') ∧ entries.Perm (p :: rest) ∧
      trait.isKeyEqual p key ∧ Inv trait s' rest := by
  obtain ⟨buckets, free, b, hrep, hhashed, hentries, hb, hmem⟩ := h.holds.exists_bucket key
  rcases hrep.remove_cases rfl hb with
    ⟨hremove, hnone⟩ | ⟨s', b', p, free', hremove, hrep', hequal, hpairs, hlen, hcount, hlen'⟩
  · exact .inl ⟨hremove, found_none_congr hmem hnone⟩
  obtain ⟨rest, hold, hnew⟩ := flatMap_set_perm hb b' pairs
  have hperm : entries ~ p :: (b'.pairs ++ rest) :=
    hentries.symm.trans (hold.trans (hpairs.append_right rest))
  have hlength := hperm.length_eq
  rw [length_cons] at hlength
  have hfull := h.half_full
  refine .inr ⟨s', p, b'.pairs ++ rest, hremove, hperm, hequal, hlen ▸ h.two_le,
    ⟨hlen ▸ h.holds.size, hlen' ▸ h.holds.lists_pos, ?_, _, free', hrep', ?_, hnew⟩, by omega⟩
  · rw [hcount, h.holds.count]
    omega
  · rw [hlen]
    apply hhashed.set
    intro q hq
    exact hhashed _ b hb q (hpairs.mem_iff.mpr (mem_cons_of_mem _ hq))

omit [DecidableEq V] in
/-- A place is missing if no pair has the key. -/
theorem placeIn_eq_none_iff : placeIn trait pos key b = none ↔ Found trait b.pairs key none := by
  rcases b with _ | ⟨p, l⟩
  · simp [placeIn, pairs, Found]
  · rw [placeIn, pairs, Found, forall_mem_cons]
    cases hequal : trait.isKeyEqual p key with
    | true => simp
    | false => simpa using forall_comm

omit [DecidableEq V] in
theorem length_array_setPair (s : ChainedHashMap P) (kv : P) (place : Place) :
    (setPair s kv place).array.length = s.array.length ∧
      (setPair s kv place).lists.length = s.lists.length ∧
      (setPair s kv place).count = s.count := by
  cases place <;> simp [setPair]

/-- **`Update`** replaces a pair with the key, or adds the pair. -/
theorem Inv.update (h : Inv trait s entries) (hkv : hasNoValue trait kv = false) :
    ∃ s' entries', update trait s kv = some s' ∧ Changes trait (.update kv) entries entries' ∧
      Inv trait s' entries' := by
  obtain ⟨buckets, free, b, hrep, hhashed, hentries, hb, hmem⟩ :=
    h.holds.exists_bucket (trait.keyOf kv)
  rw [ChainedHashMaps.update, hrep.lookupPlace_eq rfl hb]
  cases hplace : placeIn trait _ (trait.keyOf kv) b with
  | none =>
    obtain ⟨s', hinsert, hinv⟩ := h.insert hkv
    exact ⟨s', _, hinsert, .add (found_none_congr hmem (placeIn_eq_none_iff.mp hplace)), hinv⟩
  | some place =>
    obtain ⟨b', old, rest', hrep', hequal, hold', hnew'⟩ := hrep.setPair hb hkv hplace
    obtain ⟨rest, hold, hnew⟩ := flatMap_set_perm hb b' pairs
    obtain ⟨hlen, hlen', hcount⟩ := length_array_setPair s kv place
    have hperm : entries ~ old :: (rest' ++ rest) :=
      hentries.symm.trans (hold.trans (hold'.append_right rest))
    have hperm' : (buckets.set _ b').flatMap pairs ~ kv :: (rest' ++ rest) :=
      hnew.trans (hnew'.append_right rest)
    have hlength : entries.length = (kv :: (rest' ++ rest)).length := hperm.length_eq
    refine ⟨_, _, rfl, .replace hperm hequal, hlen ▸ h.two_le,
      ⟨hlen ▸ h.holds.size, hlen' ▸ h.holds.lists_pos, ?_, _, free, hrep', ?_, hperm'⟩, ?_⟩
    · rw [hcount, h.holds.count, hlength]
    · rw [hlen]
      apply hhashed.set
      intro q hq
      rcases mem_cons.mp (hnew'.mem_iff.mp hq) with rfl | hq
      · rfl
      · exact hhashed _ b hb q (hold'.mem_iff.mpr (mem_cons_of_mem _ hq))
    · rw [hlen, ← hlength]
      exact h.half_full

omit [DecidableEq V] in
/-- The free list after `Clear`: all cells, from the last one to the first. -/
theorem linked_clear {cells : List (Cell P)} (hcells : cells = (List.range n).map fun i =>
      { trait.element with next := if i = 0 then none else some (i - 1) }) {i : ℕ} (hi : i < n) :
    Linked cells (some i) ((List.range (i + 1)).reverse.map fun j => (j, trait.pair)) := by
  induction i with
  | zero =>
    refine ⟨rfl, none, ?_, rfl⟩
    simp [hcells, hi, KeyValueTrait.element]
  | succ i ih =>
    rw [range_succ, reverse_append, reverse_singleton, singleton_append]
    refine ⟨rfl, some i, ?_, ih (by omega)⟩
    simp [hcells, hi, KeyValueTrait.element]

/-- **`Clear`** makes the map empty. -/
theorem Inv.clear (h : Inv trait s entries) : Inv trait (clear trait s) [] := by
  have hcount := h.holds.count
  unfold ChainedHashMaps.clear
  split_ifs with hzero
  · -- The map is empty already.
    rwa [show entries = [] from length_eq_zero_iff.mp (by omega)] at h
  have hpos := h.holds.lists_pos
  obtain ⟨k, hsize⟩ := h.holds.size
  have hholds : Holds trait
      { array := replicate s.array.length trait.element
        lists := (List.range s.lists.length).map fun i =>
          { trait.element with next := if i = 0 then none else some (i - 1) }
        freeListHead := some (s.lists.length - 1)
        count := 0 } [] [] := by
    refine holds_nil rfl hsize rfl (by simpa using hpos) (linked_clear rfl (by omega)) ?_
    rw [Nat.sub_add_cancel hpos, length_map]
    simp [Function.comp_def]
  exact ⟨by simpa using h.two_le, hholds, by simp only [length_nil]; omega⟩

/-- **Step lemma.** -/
theorem Inv.step (h : Inv trait s entries) {op : Op P K} (hop : op.Valid trait) :
    ∃ s' entries', step trait s op = some s' ∧ Changes trait op entries entries' ∧
      Inv trait s' entries' := by
  cases op with
  | insert kv =>
    obtain ⟨s', hinsert, hinv⟩ := h.insert hop
    exact ⟨s', _, hinsert, .insert kv entries, hinv⟩
  | update kv => exact h.update hop
  | remove key =>
    rcases h.remove key with ⟨hremove, hnone⟩ | ⟨s', p, rest, hremove, hperm, hequal, hinv⟩
    · exact ⟨s, entries, by simp [ChainedHashMaps.step, hremove], .absent hnone, h⟩
    · exact ⟨s', rest, by simp [ChainedHashMaps.step, hremove], .remove hperm hequal, hinv⟩
  | clear => exact ⟨_, _, rfl, .clear entries, h.clear⟩

/-! ## The map of the pairs -/

/-- The map `m` with `v` for the keys that are equal to `key`. -/
def store (trait : KeyValueTrait P K V) (m : K → Option P) (key : K) (v : Option P) :
    K → Option P :=
  fun k => if trait.keyEqual key k then v else m k

/-- The operation on a finite map. -/
def mapStep (trait : KeyValueTrait P K V) (m : K → Option P) : Op P K → K → Option P
  | .insert kv | .update kv => store trait m (trait.keyOf kv) (some kv)
  | .remove key => store trait m key none
  | .clear => fun _ => none

/-- **The finite map** after a sequence of operations. -/
def mapOf (trait : KeyValueTrait P K V) (ops : List (Op P K)) : K → Option P :=
  ops.foldl (mapStep trait) fun _ => none

/-- Every `Insert` has a key that is not in the map, which is `m` at first. -/
def FreshInserts (trait : KeyValueTrait P K V) : (K → Option P) → List (Op P K) → Prop
  | _, [] => True
  | m, .insert kv :: ops =>
    m (trait.keyOf kv) = none ∧ FreshInserts trait (mapStep trait m (.insert kv)) ops
  | m, op :: ops => FreshInserts trait (mapStep trait m op) ops

/-- The pairs are those of the map, one for each key. -/
structure Lists (trait : KeyValueTrait P K V) (entries : List P) (m : K → Option P) : Prop where
  distinct : entries.Pairwise fun p q => ¬trait.isKeyEqual p (trait.keyOf q)
  eq_some_iff : ∀ key p, m key = some p ↔ p ∈ entries ∧ trait.isKeyEqual p key

section Lists

variable {entries' : List P} {m : K → Option P} {v : Option P}

omit [DecidableEq V]

section

variable (h : Lists trait entries m)
include h

theorem Lists.perm (hperm : entries.Perm entries') :
    Lists trait entries' m where
  distinct := by
    refine (hperm.pairwise_iff fun {p q} hpq hqp => hpq ?_).mp h.distinct
    exact trait.keyEqual_symm _ _ hqp
  eq_some_iff key p := by rw [h.eq_some_iff, hperm.mem_iff]

omit h in
theorem lists_nil : Lists trait [] fun _ => none :=
  ⟨List.Pairwise.nil, by simp⟩

/-- What is found in the entries is the value of the map. -/
theorem Lists.eq_of_found (hfound : Found trait entries key v) : m key = v := by
  cases v with
  | some p => exact (h.eq_some_iff key p).mpr hfound
  | none =>
    rw [eq_none_iff_forall_ne_some]
    intro p hp
    have hmem := (h.eq_some_iff key p).mp hp
    exact absurd hmem.2 (by simp [hfound p hmem.1])

/-- The value of the map is found in the entries. -/
theorem Lists.found (key : K) : Found trait entries key (m key) := by
  cases hm : m key with
  | some p => exact (h.eq_some_iff key p).mp hm
  | none =>
    intro p hp
    by_contra hequal
    have hsome := (h.eq_some_iff key p).mpr ⟨hp, by simpa using hequal⟩
    exact absurd (hm.symm.trans hsome) (by simp)

/-- A pair with a new key extends the map. -/
theorem Lists.cons (hfresh : Found trait entries (trait.keyOf kv) none) :
    Lists trait (kv :: entries) (store trait m (trait.keyOf kv) (some kv)) := by
  have hdistinct : ∀ p ∈ entries, ¬trait.isKeyEqual kv (trait.keyOf p) := by
    intro p hp hequal
    have hsymm : trait.isKeyEqual p (trait.keyOf kv) := trait.keyEqual_symm _ _ hequal
    exact absurd hsymm (by simp [hfresh p hp])
  refine ⟨pairwise_cons.mpr ⟨hdistinct, h.distinct⟩, fun key p => ?_⟩
  rw [store, mem_cons]
  split_ifs with heq
  · constructor
    · intro hp
      cases hp
      exact ⟨.inl rfl, heq⟩
    · rintro ⟨rfl | hp, hequal⟩
      · rfl
      · exact absurd (trait.keyEqual_trans _ _ _ heq (trait.keyEqual_symm _ _ hequal))
          (hdistinct p hp)
  · rw [h.eq_some_iff]
    refine and_congr_left fun hequal => ⟨.inr, ?_⟩
    rintro (rfl | hp)
    · exact absurd hequal heq
    · exact hp

omit h in
/-- Without its pair, a key has no value. -/
theorem Lists.of_cons (h : Lists trait (p :: entries) m) (hp : trait.isKeyEqual p key) :
    Lists trait entries (store trait m key none) := by
  have hdistinct := pairwise_cons.mp h.distinct
  refine ⟨hdistinct.2, fun k q => ?_⟩
  rw [store]
  split_ifs with heq
  · refine ⟨fun hnone => absurd hnone (by simp), fun hq => ?_⟩
    have hpk := trait.keyEqual_trans _ _ _ hp heq
    exact absurd (trait.keyEqual_trans _ _ _ hpk (trait.keyEqual_symm _ _ hq.2))
      (hdistinct.1 q hq.1)
  · rw [h.eq_some_iff, mem_cons]
    refine and_congr_left fun hequal => ⟨?_, .inr⟩
    rintro (rfl | hq)
    · exact absurd (trait.keyEqual_trans _ _ _ (trait.keyEqual_symm _ _ hp) hequal) heq
    · exact hq

omit h in
/-- The last of two values that are stored for a key counts. -/
theorem store_store {v' : Option P} :
    store trait (store trait m key v) key v' = store trait m key v' := by
  funext k
  simp only [store]
  split_ifs <;> rfl

/-- Removing a key that is not there changes nothing. -/
theorem Lists.store_none_eq_self
    (hnone : Found trait entries key none) : store trait m key none = m := by
  funext k
  simp only [store]
  split_ifs with heq
  · refine (h.eq_of_found (v := none) fun p hp => ?_).symm
    by_contra hequal
    have hpk : trait.isKeyEqual p key := trait.keyEqual_trans _ _ _
      (show trait.isKeyEqual p k by simpa using hequal) (trait.keyEqual_symm _ _ heq)
    exact absurd hpk (by simp [hnone p hp])
  · rfl

end

/-- **One operation on the entries is one step of the map.** -/
theorem Changes.lists {op : Op P K} (h : Changes trait op entries entries')
    (hlists : Lists trait entries m)
    (hfresh : ∀ kv, op = .insert kv → m (trait.keyOf kv) = none) :
    Lists trait entries' (mapStep trait m op) := by
  cases h with
  | insert kv => exact hlists.cons (hfresh kv rfl ▸ hlists.found (trait.keyOf kv))
  | add hnone => exact hlists.cons hnone
  | replace hperm hequal =>
    have hold := hlists.perm hperm
    have hcons := (hold.of_cons hequal).cons fun p hp => by
      by_contra hp'
      exact (pairwise_cons.mp hold.distinct).1 p hp (trait.keyEqual_trans _ _ _ hequal
        (trait.keyEqual_symm _ _ (by simpa [KeyValueTrait.isKeyEqual] using hp')))
    rwa [store_store] at hcons
  | absent hnone => rwa [mapStep, hlists.store_none_eq_self hnone]
  | remove hperm hequal => exact (hlists.perm hperm).of_cons hequal
  | clear => exact lists_nil

end Lists

/-! ## Iteration -/

/-- The iterator skips buckets without pairs. -/
theorem skipEmpty_eq {lists : List (Cell P)}
    (h : List.Forall₂ (IsBucket trait lists) cs bs) (i : ℕ) :
    ∃ d, skipEmpty trait cs i = i + d ∧ bs.flatMap pairs = (bs.drop d).flatMap pairs ∧
      ∀ c, cs[d]? = some c → hasNoValue trait c.item = false := by
  induction h generalizing i with
  | nil => exact ⟨0, rfl, rfl, by simp⟩
  | @cons c b cs bs hbucket hrest ih =>
    rw [skipEmpty]
    split_ifs with hempty
    · obtain ⟨d, hskip, hpairs, hvalue⟩ := ih (i + 1)
      obtain rfl := hbucket.eq_none_iff.mp hempty
      exact ⟨d + 1, by rw [hskip]; omega, by rw [flatMap_cons, hpairs]; rfl, hvalue⟩
    · exact ⟨0, rfl, rfl, by simpa using hempty⟩

/-- An iterator yields the rest of its chain and the pairs of the buckets after it. -/
theorem Rep.iterateFrom_eq (h : Rep trait s buckets others free) {fuel i : ℕ}
    (hlinked : Linked s.lists start l)
    (hfuel : (l.map Prod.snd ++ (buckets.drop i).flatMap pairs).length < fuel) :
    iterateFrom trait s fuel ⟨i, start⟩ =
      some (l.map Prod.snd ++ (buckets.drop i).flatMap pairs) := by
  induction fuel generalizing i start l with
  | zero => omega
  | succ fuel ih =>
    rw [iterateFrom]
    -- First the rest of the chain, then the next bucket that is not empty.
    cases l with
    | cons x l =>
      obtain ⟨rfl, next, hget, hrest⟩ := hlinked
      rw [map_cons, cons_append, length_cons] at hfuel
      simp only [ChainedHashMaps.next, hget, bind_eq_bind, bind_some]
      rw [ih hrest (by omega)]
      rfl
    | nil =>
      obtain rfl := linked_nil.mp hlinked
      obtain ⟨d, hskip, hpairs, hvalue⟩ := skipEmpty_eq (forall₂_drop i h.forall₂) i
      rw [drop_drop] at hpairs
      rw [getElem?_drop] at hvalue
      rw [map_nil, nil_append, hpairs] at hfuel ⊢
      simp only [ChainedHashMaps.next, hskip]
      cases hget : s.array[i + d]? with
      | none =>
        have hge : buckets.length ≤ i + d := h.length_eq ▸ getElem?_eq_none_iff.mp hget
        simp [drop_eq_nil_of_le hge]
      | some first =>
        obtain ⟨c, b, hc, hb, hbucket⟩ :=
          h.exists_bucket (List.getElem?_eq_some_iff.mp hget).1
        obtain rfl : first = c := some.inj (hget.symm.trans hc)
        obtain ⟨hlt, hbget⟩ := List.getElem?_eq_some_iff.mp hb
        rcases b with _ | ⟨p, l⟩
        · exact absurd (hbucket.eq_none_iff.mpr rfl) (by simp [hvalue first hget])
        rw [drop_eq_getElem_cons hlt, hbget, flatMap_cons, pairs,
          cons_append, length_cons] at hfuel
        rw [drop_eq_getElem_cons hlt, hbget, flatMap_cons, pairs]
        simp only [bind_eq_bind, bind_some]
        rw [ih hbucket.2.2 (by omega), hbucket.1]
        rfl

/-- **Iteration** yields the pairs, once each. -/
theorem Inv.iterate (h : Inv trait s entries) :
    ∃ es, iterate trait s = some es ∧ es.Perm entries := by
  obtain ⟨buckets, free, hrep, -, hentries⟩ := h.holds.exists_rep
  refine ⟨buckets.flatMap pairs, ?_, hentries⟩
  -- The number of pairs is at most half of that of the buckets, so the fuel does not run out.
  have hfuel : (([] : List (ℕ × P)).map Prod.snd ++
      (buckets.drop 0).flatMap pairs).length < s.array.length + s.lists.length + 1 := by
    have hfull := h.half_full
    rw [map_nil, nil_append, drop_zero, hentries.length_eq]
    omega
  have hiterate := hrep.iterateFrom_eq (linked_nil.mpr rfl) hfuel
  rwa [map_nil, nil_append, drop_zero] at hiterate

/-! ## Sequences of operations -/

/-- **Run lemma.** Operations on a map that satisfies the invariant. -/
theorem Inv.foldlM_step {ops : List (Op P K)} (h : Inv trait s entries)
    (hvalid : ∀ op ∈ ops, op.Valid trait) :
    ∃ s' entries', ops.foldlM (ChainedHashMaps.step trait) s = some s' ∧ Inv trait s' entries' ∧
      ∀ m, Lists trait entries m → FreshInserts trait m ops →
        Lists trait entries' (ops.foldl (mapStep trait) m) := by
  induction ops generalizing s entries with
  | nil => exact ⟨s, entries, rfl, h, fun m hlists _ => hlists⟩
  | cons op ops ih =>
    rw [forall_mem_cons] at hvalid
    obtain ⟨s₁, entries₁, hstep, hchanges, hinv⟩ := h.step hvalid.1
    obtain ⟨s', entries', hfold, hinv', hlists'⟩ := ih hinv hvalid.2
    refine ⟨s', entries', ?_, hinv', fun m hlists hfresh => ?_⟩
    · rw [foldlM_cons, hstep]
      exact hfold
    cases op with
    | insert kv =>
      refine hlists' _ (hchanges.lists hlists fun kv' heq => ?_) hfresh.2
      rw [← Op.insert.inj heq]
      exact hfresh.1
    | update kv | remove key | clear => exact hlists' _ (hchanges.lists hlists (by simp)) hfresh

/-- The cells of `lists` are the disjoint union of the chains of the buckets and the free list. -/
def SharesCells (trait : KeyValueTrait P K V) (s : ChainedHashMap P) : Prop :=
  ∃ (chains : List (List (ℕ × P))) (free : List (ℕ × P)), chains.length = s.array.length ∧
    (∀ (pos : ℕ) first chain, s.array[pos]? = some first → chains[pos]? = some chain →
      if hasNoValue trait first.item then chain = [] else Linked s.lists first.next chain) ∧
    Linked s.lists s.freeListHead free ∧
    ((chains.flatten ++ free).map Prod.fst).Perm (List.range s.lists.length)

/-- The pairs of a bucket that are in cells. -/
def Bucket.chain (b : Bucket P) : List (ℕ × P) := (b.map Prod.snd).getD []

/-- The chain of a bucket runs through its cells. -/
theorem Bucket.map_fst_chain (b : Bucket P) : b.chain.map Prod.fst = b.cells := by
  rcases b with _ | ⟨p, l⟩ <;> rfl

/-- The cells of different buckets are different. -/
theorem Rep.sharesCells (h : Rep trait s buckets [] free) : SharesCells trait s := by
  refine ⟨buckets.map chain, free, by simpa using h.length_eq,
    fun pos first chain hfirst hchain => ?_, h.linked_free, ?_⟩
  · rw [getElem?_map, map_eq_some_iff] at hchain
    obtain ⟨b, hb, rfl⟩ := hchain
    have hbucket := h.isBucket pos first b hfirst hb
    split_ifs with hempty
    · rw [hbucket.eq_none_iff.mp hempty]
      rfl
    · rcases b with _ | ⟨p, l⟩
      · exact absurd (hbucket.eq_none_iff.mpr rfl) hempty
      · exact hbucket.2.2
  · have hcells : (List.map Prod.fst) ∘ chain = cells (P := P) :=
      funext map_fst_chain
    have hperm := h.perm
    rwa [nil_append, flatMap_def, ← hcells, ← List.map_map, ← map_flatten, ← map_append] at hperm

/-- **Correctness of chained hash maps.** After any operations, the cells are shared out between the
chains and the free list, `count` is the number of pairs, an iteration yields each once, and the
next operation acts on one pair with the key. If `Insert` is only called with new keys, the map is a
finite map. -/
theorem chainedHashMap_correct (trait : KeyValueTrait P K V) (ops : List (Op P K))
    (hvalid : ∀ op ∈ ops, op.Valid trait) :
    ∃ s entries, run trait ops = some s ∧ SharesCells trait s ∧ iterate trait s = some entries ∧
      s.count = entries.length ∧
      (∀ key, ∃ found, lookup trait s key = some found ∧ Found trait entries key found) ∧
      (∀ key, ∃ found s', remove trait s key = some (found, s') ∧
        (found ↔ ∃ p ∈ entries, trait.isKeyEqual p key)) ∧
      (∀ op, op.Valid trait → ∃ s' after entries', step trait s op = some s' ∧
        Changes trait op entries after ∧ iterate trait s' = some entries' ∧ entries'.Perm after) ∧
      (FreshInserts trait (fun _ => none) ops →
        (∀ key, lookup trait s key = some (mapOf trait ops key)) ∧
        (entries.Pairwise fun p q => ¬trait.isKeyEqual p (trait.keyOf q)) ∧
        ∀ key p, mapOf trait ops key = some p ↔ p ∈ entries ∧ trait.isKeyEqual p key) := by
  obtain ⟨s₀, hnew, hinv0⟩ := exists_inv_new trait
  obtain ⟨s, entries₀, hfold, hinv, hlists⟩ := hinv0.foldlM_step hvalid
  obtain ⟨entries, hiterate, hperm⟩ := hinv.iterate
  replace hinv : Inv trait s entries :=
    ⟨hinv.two_le, hinv.holds.perm hperm.symm, hperm.length_eq ▸ hinv.half_full⟩
  refine ⟨s, entries, by rw [run, hnew]; exact hfold, ?_, hiterate, hinv.holds.count, hinv.lookup,
    fun key => ?_, fun op hop => ?_, fun hfresh => ?_⟩
  · obtain ⟨buckets, free, hrep, -, -⟩ := hinv.holds.exists_rep
    exact hrep.sharesCells
  · rcases hinv.remove key with ⟨hremove, hnone⟩ | ⟨s', p, rest, hremove, hp, hequal, -⟩
    · exact ⟨false, s, hremove, by simpa [Found] using hnone⟩
    · exact ⟨true, s', hremove, by simpa using ⟨p, hp.mem_iff.mpr (mem_cons_self ..), hequal⟩⟩
  · obtain ⟨s', after, hstep, hchanges, hinv'⟩ := hinv.step hop
    obtain ⟨entries', hiterate', hperm'⟩ := hinv'.iterate
    exact ⟨s', after, entries', hstep, hchanges, hiterate', hperm'⟩
  · have hmap := (hlists _ lists_nil hfresh).perm hperm.symm
    refine ⟨fun key => ?_, hmap.distinct, hmap.eq_some_iff⟩
    obtain ⟨found, hlookup, hfound⟩ := hinv.lookup key
    rw [hlookup, ← hmap.eq_of_found hfound]
    rfl

/-- Pairs of numbers, where zero is no value and all hashes collide. -/
def collidingTrait : KeyValueTrait (ℕ × ℕ) ℕ ℕ where
  pair := (0, 0)
  keyOf := Prod.fst
  valueOf := Prod.snd
  hashcode _ := 7
  keyEqual := (· == ·)
  keyEqual_refl := by simp
  keyEqual_symm := by simp +contextual
  keyEqual_trans := by simp +contextual
  hashcode_eq := by simp

/-- Two pairs in one bucket, one of which is removed. -/
theorem chainedHashMap_correct_collision :
    ∃ s, run collidingTrait [.insert (1, 5), .insert (2, 6), .remove 1] = some s ∧
      lookup collidingTrait s 1 = some none ∧ lookup collidingTrait s 2 = some (some (2, 6)) := by
  obtain ⟨s, entries, hrun, -, -, -, -, -, -, hmap⟩ := chainedHashMap_correct collidingTrait
    [.insert (1, 5), .insert (2, 6), .remove 1]
    (by simp [Op.Valid, hasNoValue, collidingTrait])
  have hlookup := (hmap (by simp [FreshInserts, mapStep, store, collidingTrait])).1
  exact ⟨s, hrun, hlookup 1, hlookup 2⟩

/-- `Insert` does not look the key up: the key is in the map twice, and once after `Remove`. -/
theorem insert_twice :
    (∃ s, run collidingTrait [.insert (1, 5), .insert (1, 6)] = some s ∧ s.count = 2 ∧
      iterate collidingTrait s = some [(1, 5), (1, 6)]) ∧
    ∃ s, run collidingTrait [.insert (1, 5), .insert (1, 6), .remove 1] = some s ∧
      lookup collidingTrait s 1 = some (some (1, 6)) ∧
      mapOf collidingTrait [.insert (1, 5), .insert (1, 6), .remove 1] 1 = none := by
  refine ⟨⟨_, rfl, rfl, rfl⟩, ⟨_, rfl, rfl, rfl⟩⟩

end DartVm.ChainedHashMaps
