import Mathlib.Data.Fintype.Card
import DartVm.ParallelMove.Invariant

/-! # Correctness of the parallel move resolver

`performMove_spec` is the contract of one call of `PerformMove`: it keeps the invariant, with the
move eliminated, within a recursion depth bounded by the number of moves that are not yet pending.
The two loops of `EmitNativeCode` then perform every move, and the emitted sequence assigns the
destinations in parallel.

* `performMove_spec`: the contract of one call.
* `emitNativeCode_assignsInParallel`: the emitted sequence assigns in parallel. -/

namespace DartVm

open List MoveOperands

namespace Resolver

variable {n : ℕ} {V : Type*} {g : MoveGraph n} {store : Location → V} {stack : List (Fin n)}
  {r r' : Resolver n} {index : Fin n}

/-! ## One call of `PerformMove` -/

/-- An emitted move is eliminated. -/
theorem emitMove_moves_self (r : Resolver n) (index : Fin n) :
    (r.emitMove index).moves index = ⟨.invalid, .invalid⟩ := by
  simp [emitMove, eliminate]

/-- Emitting a move leaves the other moves alone. -/
theorem emitMove_moves_of_ne {i : Fin n} (h : i ≠ index) :
    (r.emitMove index).moves i = r.moves i := by
  simp [emitMove, setMove_moves_of_ne h]

/-- Emitting a move runs it on the current store. -/
theorem emitMove_current (r : Resolver n) (index : Fin n) (store : Location → V) :
    (r.emitMove index).current store
      = (Transfer.move (r.moves index).dest (r.moves index).src).exec (r.current store) := by
  simp [emitMove]

/-- The move of a destination that no other move reads, with its own destination restored. -/
theorem Inv.pop_emitMove (h : Inv g store (index :: stack) r)
    (hblock : ∀ i, i ≠ index → (r.moves i).src ≠ g.dest index) :
    Inv g store stack
      ((r.setMove index ((r.moves index).clearPending (g.dest index))).emitMove index) := by
  set r₁ := r.setMove index ((r.moves index).clearPending (g.dest index)) with hr1
  have hmove : r₁.moves index = ⟨g.dest index, (r.moves index).src⟩ := by
    simp [hr1, clearPending]
  have hcurrent : (r₁.emitMove index).current store
      = (Transfer.move (g.dest index) (r.moves index).src).exec (r.current store) := by
    rw [emitMove_current, hmove]; rfl
  refine h.pop (emitMove_moves_self _ _) ?_ ?_ ?_ ?_
  · intro i hi
    rw [emitMove_moves_of_ne hi, setMove_moves_of_ne hi]
  · rw [hcurrent, Transfer.exec_move_dst]
    exact h.waiting index (h.pending index (by simp))
  · intro l hl
    rw [hcurrent, Transfer.exec_move_of_ne hl]
  · intro i hi _
    rw [hcurrent, Transfer.exec_move_of_ne (hblock i hi)]

/-- The swap of a cycle, for a move whose own destination operand has been restored. -/
theorem Inv.pop_emitSwap {q : Fin n} (h : Inv g store (index :: q :: stack) r)
    (hblock : ∀ i ∉ index :: q :: stack, (r.moves i).src ≠ g.dest index) :
    let r₁ := (r.setMove index ((r.moves index).clearPending (g.dest index))).emitSwap index
    Inv g store (q :: stack) r₁ ∧ r₁.moves index = ⟨.invalid, .invalid⟩ ∧
      ∀ i, i ≠ index →
        r₁.moves i = ⟨(r.moves i).dest, redirect (g.dest q) (g.dest index) (r.moves i).src⟩ := by
  intro r₁
  have hcaller : (r.moves index).src = g.dest q := (isChain_cons_cons.mp h.chain).1
  have hq := g.dest_ne_invalid q
  have hi := g.dest_ne_invalid index
  have hr1 : r₁ = ((r.setMove index ((r.moves index).clearPending (g.dest index))).emit
      (.swap (g.dest q) (g.dest index)) |>.setMove index ⟨.invalid, .invalid⟩).redirectSources
        (g.dest q) (g.dest index) := by
    simp [r₁, emitSwap, clearPending, eliminate, hcaller]
  have hself : r₁.moves index = ⟨.invalid, .invalid⟩ := by
    rw [hr1, redirectSources_moves hq hi, setMove_moves_self]
    congr 1
    exact (redirect_eq_invalid hq hi).mpr rfl
  have hothers : ∀ i, i ≠ index →
      r₁.moves i = ⟨(r.moves i).dest, redirect (g.dest q) (g.dest index) (r.moves i).src⟩ := by
    intro i hii
    rw [hr1, redirectSources_moves hq hi, setMove_moves_of_ne hii, emit_moves,
      setMove_moves_of_ne hii]
  refine ⟨h.pop_swap hblock hself hothers ?_, hself, hothers⟩
  rw [hr1]; simp

/-- **The end of `PerformMove`.** Once no unpending move reads the destination of the innermost
pending move, that move is performed, and no assertion fails. -/
theorem resolve_spec (h : Inv g store (index :: stack) r)
    (hblock : ∀ i ∉ index :: stack, (r.moves i).src ≠ g.dest index) :
    ∃ r', r.resolve index (g.dest index) = .ok r' ∧ Inv g store stack r' ∧
      (r'.moves index).src = .invalid ∧ Progress g stack r r' := by
  have hdest := g.dest_ne_invalid index
  have hwait := h.waiting index (h.pending index (by simp))
  unfold resolve
  simp only [setMove_moves_self]
  set r₁ := r.setMove index ((r.moves index).clearPending (g.dest index)) with hr1
  have hr₁_of_ne : ∀ i, i ≠ index → r₁.moves i = r.moves i := fun i hi => by
    rw [setMove_moves_of_ne hi]
  have hr₁_src : ∀ i, (r₁.moves i).src = (r.moves i).src := by
    intro i
    by_cases hi : i = index
    · subst hi; simp [hr1, clearPending]
    · rw [hr₁_of_ne i hi]
  -- Progress holds whenever the move itself is gone and no other source is redirected.
  have hprogress : ∀ r₂ : Resolver n, (r₂.moves index).src = .invalid →
      (∀ i, i ≠ index → r₂.moves i = r.moves i) → Progress g stack r r₂ := by
    intro r₂ hself hothers
    constructor
    · intro i hi
      by_cases hii : i = index
      · subst hii; exact hself
      · rw [hothers i hii]; exact hi
    · intro q _ i _ hs
      by_cases hii : i = index
      · subst hii
        exact absurd (hs.symm.trans hself) (g.dest_ne_invalid q)
      · rwa [hothers i hii] at hs
  by_cases hsrc : (r.moves index).src = g.dest index
  · -- A swap has already put the value in place.
    rw [if_pos (by simpa [clearPending] using hsrc)]
    refine ⟨_, rfl, h.pop ?_ ?_ ?_ ?_ ?_, ?_, hprogress _ ?_ ?_⟩
    · simp [eliminate]
    · intro i hi; rw [setMove_moves_of_ne hi, hr₁_of_ne i hi]
    · rw [hsrc] at hwait; exact hwait
    · intro l _; rfl
    · intro i _ _; rfl
    · simp [eliminate]
    · simp [eliminate]
    · intro i hi; rw [setMove_moves_of_ne hi, hr₁_of_ne i hi]
  · rw [if_neg (by simpa [clearPending] using hsrc)]
    cases hfind : (finRange n).find? fun i => (r₁.moves i).blocks (g.dest index) with
    | none =>
      have hnone : ∀ i, (r.moves i).src ≠ g.dest index := by
        intro i hs
        have := find?_eq_none.mp hfind i (mem_finRange i)
        rw [blocks_iff _ hdest, hr₁_src] at this
        exact this hs
      have hself : ((r₁.emitMove index).moves index).src = .invalid := by
        rw [emitMove_moves_self]
      refine ⟨_, rfl, h.pop_emitMove fun i _ => hnone i, hself, hprogress _ hself ?_⟩
      intro i hi
      rw [emitMove_moves_of_ne hi, hr₁_of_ne i hi]
    | some i =>
      have hi := find?_some hfind
      rw [blocks_iff _ hdest, hr₁_src] at hi
      have hii : i ≠ index := fun heq => hsrc (heq ▸ hi)
      have hmem : i ∈ stack := by
        by_contra hmem
        exact hblock i (by simp [hii, hmem]) hi
      have hpending : (r₁.moves i).isPending = true := by
        rw [hr₁_of_ne i hii, h.isPending_iff]
        exact mem_cons_of_mem _ hmem
      -- Some move is pending below `index`, so `index` has a caller, and reads its destination.
      obtain ⟨q, rest, rfl⟩ : ∃ q rest, stack = q :: rest :=
        exists_cons_of_ne_nil (ne_nil_of_mem hmem)
      obtain ⟨hinv, hself, hothers⟩ := h.pop_emitSwap hblock
      refine ⟨r₁.emitSwap index, ?_, hinv, by rw [hself], ?_, ?_⟩
      · simp [hpending]
      · intro j hj
        by_cases hji : j = index
        · subst hji; rw [hself]
        · rw [hothers j hji]
          exact (redirect_eq_invalid (g.dest_ne_invalid q) hdest).mpr hj
      · intro p hp j hj hs
        by_cases hji : j = index
        · subst hji
          rw [hself] at hs
          exact absurd hs.symm (g.dest_ne_invalid p)
        have hj' : j ∉ index :: q :: rest := by simp_all
        have hpi : g.dest index ≠ g.dest p := by
          refine g.dest_injective.ne fun heq => ?_
          exact (nodup_cons.mp h.nodup).1 (heq ▸ hp)
        rw [hothers j hji] at hs
        unfold redirect at hs
        split at hs
        · exact absurd hs hpi
        · rwa [if_neg (hblock j hj')] at hs

/-- **The contract of `PerformMove`.** A call on a waiting move that reads the destination of the
innermost pending move, if any, returns with it performed. The recursion is at most as deep as there
are moves not pending. -/
theorem performMove_spec (fuel : ℕ) (h : Inv g store stack r) (hi : index ∉ stack)
    (hsrc : (r.moves index).src ≠ .invalid)
    (hcaller : ∀ q ∈ stack.head?, (r.moves index).src = g.dest q)
    (hfuel : n ≤ stack.length + fuel) :
    ∃ r', performMove fuel r index = .ok r' ∧ Inv g store stack r' ∧
      (r'.moves index).src = .invalid ∧ Progress g stack r r' := by
  induction fuel generalizing stack r index with
  | zero =>
    -- All moves would be pending, but `index` is not.
    have hlen := Nodup.length_le_card (nodup_cons.mpr ⟨hi, h.nodup⟩)
    simp only [length_cons, Fintype.card_fin] at hlen
    omega
  | succ fuel ih =>
    have hdest := h.dest_of_waiting hi hsrc
    have hpush := h.push hi hsrc hcaller
    have hne := h.src_ne_dest index hi
    set r₀ := r.setMove index (r.moves index).markPending with hr0
    have hr₀_src : ∀ i, (r₀.moves i).src = (r.moves i).src := by
      intro i
      by_cases hii : i = index
      · subst hii; simp [hr0, markPending]
      · rw [setMove_moves_of_ne hii]
    obtain ⟨s, hloop, ⟨hinv, hprog⟩, hdone⟩ := Loop.foldlM_ok_of_inv
      (fun r i =>
        if (r.moves i).blocks (g.dest index) && !(r.moves i).isPending then performMove fuel r i
        else .ok r)
      (fun done s => (Inv g store (index :: stack) s ∧ Progress g (index :: stack) r₀ s) ∧
        ∀ i ∈ done, i ∉ index :: stack → (s.moves i).src ≠ g.dest index)
      (finRange n) (fun done a _ s _ => by
        rintro ⟨⟨hinv, hprog⟩, hdone⟩
        by_cases hb : (s.moves a).src = g.dest index ∧ a ∉ index :: stack
        · obtain ⟨hsa, ha⟩ := hb
          obtain ⟨s', hs', hinv', hgone, hprog'⟩ := ih hinv ha
            (by rw [hsa]; exact g.dest_ne_invalid index) (by simp [hsa])
            (by simp only [length_cons]; omega)
          refine ⟨s', ?_, ⟨hinv', hprog.trans hprog'⟩, ?_⟩
          · have hnp : (s.moves a).isPending = false := by
              rw [← Bool.not_eq_true, hinv.isPending_iff]; exact ha
            rw [(blocks_iff _ (g.dest_ne_invalid index)).mpr hsa, hnp]
            exact hs'
          · intro i hmem hi'
            rcases mem_append.mp hmem with hmem | hmem
            · exact fun hs => hdone i hmem hi'
                (hprog'.blockers index (by simp) i hi' hs)
            · rw [mem_singleton.mp hmem, hgone]
              exact (g.dest_ne_invalid index).symm
        · refine ⟨s, ?_, ⟨hinv, hprog⟩, ?_⟩
          · rw [if_neg]
            rw [Bool.and_eq_true, blocks_iff _ (g.dest_ne_invalid index), Bool.not_eq_true',
              ← Bool.not_eq_true, hinv.isPending_iff]
            exact hb
          · intro i hmem hi'
            rcases mem_append.mp hmem with hmem | hmem
            · exact hdone i hmem hi'
            · rw [mem_singleton.mp hmem] at hi' ⊢
              exact fun hs => hb ⟨hs, hi'⟩)
      r₀ ⟨⟨hpush, Progress.refl r₀⟩, by simp⟩
    obtain ⟨r', hr', hinv', hgone, hprog'⟩ :=
      resolve_spec hinv fun i hi' => hdone i (mem_finRange i) hi'
    refine ⟨r', ?_, hinv', hgone, ?_, ?_⟩
    · have hp : (r.moves index).isPending = false := by
        rw [← Bool.not_eq_true, h.isPending_iff]; exact hi
      have hred : (r.moves index).isRedundant = false := by
        simp [isRedundant, isEliminated, Location.isInvalid, hsrc,
          hdest, g.dest_ne_invalid index, hne]
      have hval : (r.moves index).src.isInvalid = false := by simp [Location.isInvalid, hsrc]
      simp only [performMove, hp, hred, hval, Bool.not_false, assertThat_true, hdest]
      rw [hloop]
      exact hr'
    · exact fun i hs => hprog'.eliminated i (hprog.eliminated i (by rw [hr₀_src]; exact hs))
    · intro q hq i hi' hs
      have hii : i ≠ index := by
        rintro rfl
        exact g.dest_ne_invalid q (hs.symm.trans hgone)
      rw [← hr₀_src]
      exact hprog.blockers q (mem_cons_of_mem _ hq) i (by simp [hii, hi'])
        (hprog'.blockers q hq i hi' hs)

/-! ## The two loops of `EmitNativeCode` -/

/-- Outside of `PerformMove` a move may be emitted at once when no move reads its destination. -/
theorem Inv.emitMove (h : Inv g store [] r) (hsrc : (r.moves index).src ≠ .invalid)
    (hblock : ∀ i, i ≠ index → (r.moves i).src ≠ g.dest index) :
    Inv g store [] (r.emitMove index) := by
  have hpush := h.push (by simp) hsrc (by simp)
  have hpop := hpush.pop_emitMove fun i hi => by
    rw [setMove_moves_of_ne hi]; exact hblock i hi
  -- Marking the move pending and restoring its destination gives back the same state.
  have hdest := h.dest_of_waiting (by simp) hsrc
  have hsame : (r.setMove index (r.moves index).markPending).setMove index
      (((r.setMove index (r.moves index).markPending).moves index).clearPending (g.dest index))
        = r := by
    simp only [setMove_moves_self, markPending, clearPending, ← hdest]
    simp [setMove]
  rwa [hsame] at hpop

/-- The first loop performs every move that does not read a constant. -/
theorem performMoves_spec (fuel : ℕ) (hfuel : n ≤ fuel) (h : Inv g store [] r) :
    ∃ r', (List.finRange n).foldlM (fun r i =>
        if !(r.moves i).isEliminated && !(r.moves i).src.isConstant then performMove fuel r i
        else .ok r) r = .ok r' ∧ Inv g store [] r' ∧
      ∀ i, (r'.moves i).src = .invalid ∨ (g.src i).isConstant = true := by
  obtain ⟨r', hloop, hinv, hdone⟩ := Loop.foldlM_ok_of_inv
    (fun (r : Resolver n) i =>
      if !(r.moves i).isEliminated && !(r.moves i).src.isConstant then performMove fuel r i
      else .ok r)
    -- Invariant: the moves that were visited are performed or load constants.
    (fun done s => Inv g store [] s ∧
      ∀ i ∈ done, (s.moves i).src = .invalid ∨ (g.src i).isConstant = true)
    (finRange n) (fun done a _ s _ => by
      rintro ⟨hinv, hdone⟩
      by_cases hgo : (s.moves a).src ≠ .invalid ∧ (s.moves a).src.isConstant = false
      · obtain ⟨s', hs', hinv', hgone, hprog⟩ :=
          performMove_spec fuel hinv (by simp) hgo.1 (by simp) (by simpa using hfuel)
        refine ⟨s', ?_, hinv', ?_⟩
        · simpa [isEliminated, Location.isInvalid, hgo.1, hgo.2] using hs'
        · intro i hmem
          rcases mem_append.mp hmem with hmem | hmem
          · exact (hdone i hmem).imp_left (hprog.eliminated i)
          · rw [mem_singleton.mp hmem]; exact .inl hgone
      · refine ⟨s, ?_, hinv, ?_⟩
        · rw [if_neg]
          simpa [isEliminated, Location.isInvalid] using hgo
        intro i hmem
        rcases mem_append.mp hmem with hmem | hmem
        · exact hdone i hmem
        rw [mem_singleton.mp hmem]
        by_cases hs : (s.moves a).src = .invalid
        · exact Or.inl hs
        · rw [← hinv.constant a hs]
          simpa [hs] using hgo) r ⟨h, by simp⟩
  exact ⟨r', hloop, hinv, fun i => hdone i (mem_finRange i)⟩

/-- The second loop performs the remaining moves, all of which read constants. -/
theorem emitConstants_spec (h : Inv g store [] r)
    (hconst : ∀ i, (r.moves i).src = .invalid ∨ (g.src i).isConstant = true) :
    ∃ r', (List.finRange n).foldlM (fun r i =>
        if !(r.moves i).isEliminated then do
          assertThat (r.moves i).src.isConstant
          return r.emitMove i
        else .ok r) r = .ok r' ∧ Inv g store [] r' ∧ ∀ i, (r'.moves i).src = .invalid := by
  obtain ⟨r', hloop, hinv, -, hdone⟩ := Loop.foldlM_ok_of_inv
    (fun (r : Resolver n) i =>
      if !(r.moves i).isEliminated then do
        assertThat (r.moves i).src.isConstant
        return r.emitMove i
      else .ok r)
    (fun done s => Inv g store [] s ∧
      (∀ i, (s.moves i).src = .invalid ∨ (g.src i).isConstant = true) ∧
      ∀ i ∈ done, (s.moves i).src = .invalid)
    (finRange n) (fun done a _ s _ => by
      rintro ⟨hinv, hconst, hdone⟩
      by_cases hs : (s.moves a).src = .invalid
      · refine ⟨s, by simp [isEliminated, hs, Location.isInvalid], hinv, hconst, ?_⟩
        intro i hmem
        rcases mem_append.mp hmem with hmem | hmem
        · exact hdone i hmem
        · rw [mem_singleton.mp hmem]; exact hs
      · have hsa : (s.moves a).src.isConstant = true := by
          rw [hinv.constant a hs]; exact (hconst a).resolve_left hs
        -- Constants are no destinations, so nothing reads the destination of `a`.
        have hblock : ∀ i, i ≠ a → (s.moves i).src ≠ g.dest a := by
          intro i _ heq
          have hval : (s.moves i).src ≠ .invalid := by rw [heq]; exact g.dest_ne_invalid a
          have := hinv.constant i hval
          rw [heq, g.dest_not_constant a, (hconst i).resolve_left hval] at this
          cases this
        have hgone : ∀ i, (s.moves i).src = .invalid → ((s.emitMove a).moves i).src = .invalid := by
          intro i hi
          have hia : i ≠ a := by rintro rfl; exact hs hi
          rw [emitMove_moves_of_ne hia]; exact hi
        refine ⟨s.emitMove a, ?_, hinv.emitMove hs hblock, ?_, ?_⟩
        · simp [isEliminated, hs, Location.isInvalid, hsa]
        · exact fun i => (hconst i).imp_left (hgone i)
        · intro i hmem
          rcases mem_append.mp hmem with hmem | hmem
          · exact hgone i (hdone i hmem)
          · rw [mem_singleton.mp hmem, emitMove_moves_self]) r ⟨h, hconst, by simp⟩
  exact ⟨r', hloop, hinv, fun i => hdone i (mem_finRange i)⟩

end Resolver

/-! ## The emitted code -/

/-- **A parallel move** as the register allocator builds it: destinations that are not ignored are
distinct and no constants, and a move without a source has no destination. -/
structure ParallelMove where
  moves : List MoveOperands
  dest_distinct : moves.Pairwise fun a b => a.dest = b.dest → a.dest = .invalid
  dest_not_constant : ∀ m ∈ moves, m.dest.isConstant = false
  /-- The class invariant that `MoveOperands` asserts. -/
  src_ne_invalid : ∀ m ∈ moves, m.src = .invalid → m.dest = .invalid

namespace ParallelMove

/-- The pairs a parallel move assigns: its operands less those whose destination is ignored. -/
def pairs (p : ParallelMove) : List (Location × Location) :=
  (p.moves.filter fun m => !m.dest.isInvalid).map fun m => (m.dest, m.src)

variable {p : ParallelMove}

/-- The assignments of a parallel move. -/
theorem mem_pairs {d s : Location} :
    (d, s) ∈ p.pairs ↔ ⟨d, s⟩ ∈ p.moves ∧ d ≠ .invalid := by
  simp only [pairs, List.mem_map, mem_filter, Bool.not_eq_true', ← Bool.not_eq_true,
    Location.isInvalid_iff, Prod.mk.injEq]
  constructor
  · rintro ⟨m, ⟨hm, hd⟩, rfl, rfl⟩; exact ⟨hm, hd⟩
  · rintro ⟨hm, hd⟩; exact ⟨⟨d, s⟩, ⟨hm, hd⟩, rfl, rfl⟩

/-- The initial list has the moves that are not redundant. -/
theorem mem_buildInitialMoveList {l : List MoveOperands} {m : MoveOperands} :
    m ∈ buildInitialMoveList l ↔
      m ∈ l ∧ m.src ≠ .invalid ∧ m.dest ≠ .invalid ∧ m.src ≠ m.dest := by
  simp [buildInitialMoveList, isRedundant, isEliminated,
    Location.isInvalid, and_assoc]

/-- The worklist of a parallel move is a move graph. -/
def moveGraph (p : ParallelMove) : MoveGraph (buildInitialMoveList p.moves).length where
  dest i := ((buildInitialMoveList p.moves).get i).dest
  src i := ((buildInitialMoveList p.moves).get i).src
  dest_injective := by
    intro i j hij
    have hpair : (buildInitialMoveList p.moves).Pairwise
        fun a b => a.dest = b.dest → a.dest = .invalid := p.dest_distinct.filter _
    rw [pairwise_iff_get] at hpair
    have hval := fun k =>
      (mem_buildInitialMoveList.mp ((buildInitialMoveList p.moves).get_mem k)).2.2.1
    rcases lt_trichotomy i j with hlt | heq | hgt
    · exact absurd (hpair i j hlt hij) (hval i)
    · exact heq
    · exact absurd (hpair j i hgt hij.symm) (hval j)
  dest_ne_invalid i := (mem_buildInitialMoveList.mp (List.get_mem _ i)).2.2.1
  dest_not_constant i :=
    p.dest_not_constant _ (mem_buildInitialMoveList.mp (List.get_mem _ i)).1
  src_ne_invalid i := (mem_buildInitialMoveList.mp (List.get_mem _ i)).2.1
  src_ne_dest i := (mem_buildInitialMoveList.mp (List.get_mem _ i)).2.2.2

variable {V : Type*}

/-- The invariant holds at the start. -/
theorem inv_initial (p : ParallelMove) (store : Location → V) :
    Resolver.Inv p.moveGraph store [] ⟨(buildInitialMoveList p.moves).get, []⟩ where
  nodup := nodup_nil
  pending := by simp
  dest_eq i := by
    refine (if_neg ?_).symm
    simp only [not_mem_nil, or_false]
    exact p.moveGraph.src_ne_invalid i
  src_ne_dest i _ := p.moveGraph.src_ne_dest i
  chain := List.IsChain.nil
  performed i hi := absurd hi (p.moveGraph.src_ne_invalid i)
  waiting i _ := rfl
  frame l _ := rfl
  constant i _ := rfl

/-- From a state with every move performed the assignment is read off the invariant: a redundant
operand is no destination of the worklist, so it has kept its value. -/
theorem assigns_of_inv {store : Location → V}
    {r : Resolver (buildInitialMoveList p.moves).length}
    (h : Resolver.Inv p.moveGraph store [] r) (hall : ∀ i, (r.moves i).src = .invalid) :
    AssignsInParallel p.pairs store (Transfer.execAll r.code store) := by
  constructor
  · rintro ⟨d, s⟩ hmem
    obtain ⟨hmoves, hd⟩ := mem_pairs.mp hmem
    have hs : s ≠ .invalid := fun hs => hd (p.src_ne_invalid _ hmoves hs)
    by_cases hsd : s = d
    · subst hsd
      refine h.frame s fun i hi => ?_
      -- Another move with the destination `s` would be the redundant one itself.
      have hget := mem_buildInitialMoveList.mp (get_mem (buildInitialMoveList p.moves) i)
      have hne : (buildInitialMoveList p.moves).get i ≠ ⟨s, s⟩ := by
        intro heq
        rw [heq] at hget
        exact hget.2.2.2 rfl
      have hsymm : Std.Symm fun a b : MoveOperands => a.dest = b.dest → a.dest = .invalid :=
        ⟨fun a b hab hba => hba ▸ hab hba.symm⟩
      have := p.dest_distinct.forall hget.1 hmoves hne hi
      exact hget.2.2.1 this
    · obtain ⟨i, hi⟩ := mem_iff_get.mp
        (mem_buildInitialMoveList.mpr ⟨hmoves, hs, hd, hsd⟩)
      have hperf := h.performed i (hall i)
      have hdest : p.moveGraph.dest i = d := congrArg dest hi
      have hsrc : p.moveGraph.src i = s := congrArg src hi
      rwa [hdest, hsrc] at hperf
  · intro l hl
    refine h.frame l fun i hi => ?_
    have hget := mem_buildInitialMoveList.mp (get_mem (buildInitialMoveList p.moves) i)
    exact hl (_, _) (mem_pairs.mpr ⟨hget.1, hget.2.2.1⟩) hi

/-- **The emitted code assigns in parallel**, given fuel for each move. -/
theorem emitNativeCode_run (p : ParallelMove) {fuel : ℕ}
    (hfuel : p.moves.length ≤ fuel) (store : Location → V) :
    ∃ code, emitNativeCode fuel p.moves = .ok code ∧
      AssignsInParallel p.pairs store (Transfer.execAll code store) := by
  have hlen : (buildInitialMoveList p.moves).length ≤ fuel :=
    (length_filter_le _ _).trans hfuel
  obtain ⟨r₁, hloop1, hinv1, hconst⟩ :=
    Resolver.performMoves_spec fuel hlen (p.inv_initial store)
  obtain ⟨r₂, hloop2, hinv2, hall⟩ := Resolver.emitConstants_spec hinv1 hconst
  refine ⟨r₂.code, ?_, assigns_of_inv hinv2 hall⟩
  unfold emitNativeCode
  simp only [hloop1, hloop2, Loop.ok_bind]
  rfl

/-- **Correctness of the parallel move resolver.** For every parallel move with distinct
destinations and every recursion budget of at least its moves, `EmitNativeCode` returns without a
failed assertion, and its moves and swaps assign in parallel from every machine state. -/
theorem emitNativeCode_assignsInParallel {V : Type*} (p : ParallelMove) (fuel : ℕ)
    (hfuel : p.moves.length ≤ fuel) :
    ∃ code, emitNativeCode fuel p.moves = .ok code ∧
      ∀ store : Location → V, AssignsInParallel p.pairs store (Transfer.execAll code store) := by
  obtain ⟨code, hcode, -⟩ := p.emitNativeCode_run hfuel fun _ => ()
  refine ⟨code, hcode, fun store => ?_⟩
  obtain ⟨code', hcode', hassign⟩ := p.emitNativeCode_run hfuel store
  rwa [Except.ok.inj (hcode.symm.trans hcode')]

/-- A rotation of two registers and a stack slot, with a second reader of the slot
and a constant. -/
def rotation : ParallelMove where
  moves :=
    [⟨.register 0, .register 1⟩, ⟨.register 1, .stackSlot (-1) 29⟩,
      ⟨.stackSlot (-1) 29, .register 0⟩, ⟨.register 3, .stackSlot (-1) 29⟩,
      ⟨.fpuRegister 0, .constant 7⟩]
  dest_distinct := by decide
  dest_not_constant := by decide
  src_ne_invalid := by decide

/-- The rotation has fuel enough, so that its code assigns in parallel. -/
theorem emitNativeCode_rotation :
    rotation.moves.length ≤ 5 ∧ ∃ code, emitNativeCode 5 rotation.moves = .ok code ∧
      ∀ store : Location → ℕ,
        AssignsInParallel rotation.pairs store (Transfer.execAll code store) :=
  ⟨by decide, emitNativeCode_assignsInParallel rotation 5 (by decide)⟩

end ParallelMove

end DartVm
