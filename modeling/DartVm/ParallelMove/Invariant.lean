import Mathlib.Data.List.Chain
import DartVm.ParallelMove.Resolver

/-! # The invariant of the parallel move resolver

`MoveGraph` is the worklist the resolver starts from.  `Resolver.Inv g store stack r` relates a
state to it, where `stack` lists the moves pending in the activations of `PerformMove`, innermost
first:

* a move that is eliminated has its value in place, and any other move reads a location that holds
  the value it has to transport;
* each pending move but the outermost one reads the destination of its caller, so the pending moves
  form a path that only the outermost move can close into a cycle.

The lemmas are the steps of `PerformMove`: marking a move pending, and three ways of removing it
again. -/

namespace DartVm

open List MoveOperands

/-- **The move graph**: a worklist as `BuildInitialMoveList` leaves it, for distinct destinations
that are machine locations. -/
structure MoveGraph (n : ℕ) where
  dest : Fin n → Location
  src : Fin n → Location
  dest_injective : Function.Injective dest
  dest_ne_invalid : ∀ i, dest i ≠ .invalid
  dest_not_constant : ∀ i, (dest i).isConstant = false
  src_ne_invalid : ∀ i, src i ≠ .invalid
  src_ne_dest : ∀ i, src i ≠ dest i

namespace Resolver

variable {n : ℕ} {V : Type*} {g : MoveGraph n} {store : Location → V} {stack : List (Fin n)}
  {r r' r'' : Resolver n} {index : Fin n} {a b l : Location} {i : Fin n}

/-- The store the code emitted so far produces. -/
def current (r : Resolver n) (store : Location → V) : Location → V :=
  Transfer.execAll r.code store

/-- **The resolver invariant**; see the module description. -/
structure Inv (g : MoveGraph n) (store : Location → V) (stack : List (Fin n))
    (r : Resolver n) : Prop where
  nodup : stack.Nodup
  /-- A pending move is not eliminated. -/
  pending : ∀ i ∈ stack, (r.moves i).src ≠ .invalid
  /-- The destination operand encodes whether the move is eliminated, pending or neither. -/
  dest_eq : ∀ i, (r.moves i).dest =
    if (r.moves i).src = .invalid ∨ i ∈ stack then .invalid else g.dest i
  /-- No unpending move has become redundant. -/
  src_ne_dest : ∀ i ∉ stack, (r.moves i).src ≠ g.dest i
  /-- Each pending move reads the destination of its caller. -/
  chain : stack.IsChain fun p q => (r.moves p).src = g.dest q
  /-- A performed move has its value in place. -/
  performed : ∀ i, (r.moves i).src = .invalid → r.current store (g.dest i) = store (g.src i)
  /-- An unperformed move reads the value it transports. -/
  waiting : ∀ i, (r.moves i).src ≠ .invalid → r.current store (r.moves i).src = store (g.src i)
  /-- Locations that are no destination are untouched. -/
  frame : ∀ l, (∀ i, g.dest i ≠ l) → r.current store l = store l
  /-- Swaps redirect no move to or from a constant. -/
  constant : ∀ i, (r.moves i).src ≠ .invalid → (r.moves i).src.isConstant = (g.src i).isConstant

/-- **Progress** while the moves of `stack` are pending: no move comes back, and no unpending move
starts to read the destination of a pending one. -/
structure Progress (g : MoveGraph n) (stack : List (Fin n)) (r r' : Resolver n) : Prop where
  eliminated : ∀ i, (r.moves i).src = .invalid → (r'.moves i).src = .invalid
  /-- The loop of `PerformMove` misses no blocking move. -/
  blockers : ∀ q ∈ stack, ∀ i ∉ stack, (r'.moves i).src = g.dest q → (r.moves i).src = g.dest q

theorem Progress.refl (r : Resolver n) : Progress g stack r r :=
  ⟨fun _ h => h, fun _ _ _ _ h => h⟩

theorem Progress.trans (h : Progress g stack r r') (h' : Progress g stack r' r'') :
    Progress g stack r r'' :=
  ⟨fun i hi => h'.eliminated i (h.eliminated i hi),
    fun q hq i hi hs => h.blockers q hq i hi (h'.blockers q hq i hi hs)⟩

/-! ## Reading the operands off the invariant -/

@[simp] theorem setMove_moves_self (r : Resolver n) (index : Fin n) (m : MoveOperands) :
    (r.setMove index m).moves index = m := by
  simp [setMove]

/-- Setting a move leaves the others alone. -/
theorem setMove_moves_of_ne (h : i ≠ index) (m : MoveOperands) :
    (r.setMove index m).moves i = r.moves i := by
  simp [setMove, h]

@[simp] theorem setMove_current (r : Resolver n) (index : Fin n) (m : MoveOperands)
    (store : Location → V) : (r.setMove index m).current store = r.current store := rfl

@[simp] theorem emit_moves (r : Resolver n) (t : Transfer Location) :
    (r.emit t).moves = r.moves := rfl

@[simp] theorem emit_current (r : Resolver n) (t : Transfer Location) (store : Location → V) :
    (r.emit t).current store = t.exec (r.current store) := by
  simp [emit, current]

@[simp] theorem redirectSources_current (r : Resolver n) (a b : Location)
    (store : Location → V) : (r.redirectSources a b).current store = r.current store := rfl

/-- A move that waits still has its original destination. -/
theorem Inv.dest_of_waiting (h : Inv g store stack r) (hi : i ∉ stack)
    (hs : (r.moves i).src ≠ .invalid) : (r.moves i).dest = g.dest i := by
  rw [h.dest_eq i, if_neg (by tauto)]

/-- The pending moves are those on the stack. -/
theorem Inv.isPending_iff (h : Inv g store stack r) (i : Fin n) :
    (r.moves i).isPending = true ↔ i ∈ stack := by
  have hdest := h.dest_eq i
  constructor
  · intro hp
    by_contra hi
    simp only [isPending, Bool.and_eq_true, Location.isInvalid_iff,
      Bool.not_eq_true', ← Bool.not_eq_true] at hp
    rw [hp.1, if_neg (by tauto)] at hdest
    exact g.dest_ne_invalid i hdest.symm
  · intro hi
    rw [if_pos (.inr hi)] at hdest
    have hsrc := h.pending i hi
    simp [isPending, hdest, Location.isInvalid, hsrc]

/-- The moves that block a location are those that read it. -/
theorem blocks_iff (m : MoveOperands) {loc : Location} (hloc : loc ≠ .invalid) :
    m.blocks loc = true ↔ m.src = loc := by
  simp only [blocks, isEliminated, Location.isInvalid, Bool.and_eq_true,
    Bool.not_eq_true', decide_eq_false_iff_not, decide_eq_true_eq, and_iff_right_iff_imp]
  rintro rfl
  exact hloc

/-! ## Marking a move pending -/

/-- **Entering `PerformMove`**: a waiting move that reads the innermost pending destination can be
marked pending. -/
theorem Inv.push (h : Inv g store stack r) (hi : index ∉ stack)
    (hsrc : (r.moves index).src ≠ .invalid)
    (hcaller : ∀ q ∈ stack.head?, (r.moves index).src = g.dest q) :
    Inv g store (index :: stack) (r.setMove index (r.moves index).markPending) := by
  have hsame : ∀ i, ((r.setMove index (r.moves index).markPending).moves i).src
      = (r.moves i).src := by
    intro i
    by_cases hii : i = index
    · subst hii; simp [markPending]
    · rw [setMove_moves_of_ne hii]
  constructor
  case nodup => exact nodup_cons.mpr ⟨hi, h.nodup⟩
  case pending =>
    intro i hmem
    rw [hsame]
    rcases mem_cons.mp hmem with rfl | hmem
    · exact hsrc
    · exact h.pending i hmem
  case dest_eq =>
    intro i
    by_cases hii : i = index
    · subst hii; simp [markPending]
    · rw [setMove_moves_of_ne hii, h.dest_eq i]
      simp [hii]
  case src_ne_dest =>
    intro i hmem
    rw [hsame]
    exact h.src_ne_dest i fun hmem' => hmem (mem_cons_of_mem _ hmem')
  case chain =>
    simp only [hsame]
    cases stack with
    | nil => exact List.IsChain.singleton _
    | cons q rest => exact isChain_cons_cons.mpr ⟨hcaller q rfl, h.chain⟩
  case performed => intro i; rw [hsame]; exact h.performed i
  case waiting => intro i; rw [hsame]; exact h.waiting i
  case frame => exact h.frame
  case constant => intro i; rw [hsame]; exact h.constant i

/-! ## Removing a pending move -/

/-- **Leaving `PerformMove` without a swap.** The innermost pending move may be eliminated once its
destination holds its value and the sources of the others still hold theirs. -/
theorem Inv.pop (h : Inv g store (index :: stack) r)
    (hself : r'.moves index = ⟨.invalid, .invalid⟩)
    (hothers : ∀ i, i ≠ index → r'.moves i = r.moves i)
    (hvalue : r'.current store (g.dest index) = store (g.src index))
    (hkeep : ∀ l, l ≠ g.dest index → r'.current store l = r.current store l)
    (hread : ∀ i, i ≠ index → (r.moves i).src ≠ .invalid →
      r'.current store (r.moves i).src = r.current store (r.moves i).src) :
    Inv g store stack r' := by
  obtain ⟨hi, hnodup⟩ := nodup_cons.mp h.nodup
  have hne : ∀ i ∈ stack, i ≠ index := fun i hmem heq => hi (heq ▸ hmem)
  constructor
  case nodup => exact hnodup
  case pending =>
    intro i hmem
    rw [hothers i (hne i hmem)]
    exact h.pending i (mem_cons_of_mem _ hmem)
  case dest_eq =>
    intro i
    by_cases hii : i = index
    · subst hii; simp [hself]
    · rw [hothers i hii, h.dest_eq i]; simp [hii]
  case src_ne_dest =>
    intro i hmem
    by_cases hii : i = index
    · subst hii; rw [hself]; exact (g.dest_ne_invalid i).symm
    · rw [hothers i hii]; exact h.src_ne_dest i (by simp [hii, hmem])
  case chain =>
    refine h.chain.of_cons.imp_of_mem_imp fun p q hp _ hpq => ?_
    rw [hothers p (hne p hp)]; exact hpq
  -- The popped move is the only one that becomes performed.
  case performed =>
    intro i hs
    by_cases hii : i = index
    · subst hii; exact hvalue
    · rw [hothers i hii] at hs
      rw [hkeep _ (g.dest_injective.ne hii)]
      exact h.performed i hs
  case waiting =>
    intro i hs
    by_cases hii : i = index
    · subst hii; rw [hself] at hs; exact absurd rfl hs
    · rw [hothers i hii] at hs ⊢
      rw [hread i hii hs]
      exact h.waiting i hs
  case frame =>
    intro l hl
    rw [hkeep l (hl index).symm]
    exact h.frame l hl
  case constant =>
    intro i hs
    by_cases hii : i = index
    · subst hii; rw [hself] at hs; exact absurd rfl hs
    · rw [hothers i hii] at hs ⊢
      exact h.constant i hs

/-- The sources after a swap of `a` and `b`. -/
def redirect (a b l : Location) : Location := if l = a then b else if l = b then a else l

/-- After a swap, a redirected source reads what it has read before. -/
theorem exec_swap_redirect (a b l : Location) (st : Location → V) :
    (Transfer.swap a b).exec st (redirect a b l) = st l := by
  unfold redirect
  split
  · next h => subst h; simp
  · next ha =>
    split
    · next h => subst h; simp
    · next hb => exact Transfer.exec_swap_of_ne ha hb st

/-- The moves after a redirection of their sources. -/
theorem redirectSources_moves {a b : Location} (ha : a ≠ .invalid) (hb : b ≠ .invalid)
    (r : Resolver n) (i : Fin n) :
    (r.redirectSources a b).moves i = ⟨(r.moves i).dest, redirect a b (r.moves i).src⟩ := by
  simp only [redirectSources, redirect, blocks_iff _ ha, blocks_iff _ hb, setSrc]
  split
  · rfl
  · split <;> rfl

/-- Redirection eliminates no move and revives none. -/
theorem redirect_eq_invalid (ha : a ≠ .invalid) (hb : b ≠ .invalid) :
    redirect a b l = .invalid ↔ l = .invalid := by
  unfold redirect
  split
  · next h => subst h; simp [ha, hb]
  · split
    · next h => subst h; simp [ha, hb]
    · rfl

/-- Redirection does not touch constants. -/
theorem redirect_isConstant (ha : a.isConstant = false)
    (hb : b.isConstant = false) : (redirect a b l).isConstant = l.isConstant := by
  unfold redirect
  split
  · next h => subst h; rw [ha, hb]
  · split
    · next h => subst h; rw [ha, hb]
    · rfl

/-- **Leaving `PerformMove` with a swap.** The innermost pending move `index` reads the destination
of its caller `q`. The exchange performs it; the caller's destination now holds what the moves that
read `dest index` need, all of them pending. -/
theorem Inv.pop_swap {q : Fin n} (h : Inv g store (index :: q :: stack) r)
    (hblock : ∀ i ∉ index :: q :: stack, (r.moves i).src ≠ g.dest index)
    (hself : r'.moves index = ⟨.invalid, .invalid⟩)
    (hothers : ∀ i, i ≠ index →
      r'.moves i = ⟨(r.moves i).dest, redirect (g.dest q) (g.dest index) (r.moves i).src⟩)
    (hcurrent : r'.current store
      = (Transfer.swap (g.dest q) (g.dest index)).exec (r.current store)) :
    Inv g store (q :: stack) r' := by
  obtain ⟨hi, hnodup⟩ := nodup_cons.mp h.nodup
  have hne : ∀ i ∈ q :: stack, i ≠ index := fun i hmem heq => hi (heq ▸ hmem)
  have hcaller : (r.moves index).src = g.dest q := (isChain_cons_cons.mp h.chain).1
  have hinv : ∀ i, i ≠ index → ((r'.moves i).src = .invalid ↔ (r.moves i).src = .invalid) := by
    intro i hii
    rw [hothers i hii]
    exact redirect_eq_invalid (g.dest_ne_invalid _) (g.dest_ne_invalid _)
  constructor
  case nodup => exact hnodup
  case pending =>
    intro i hmem
    rw [Ne, hinv i (hne i hmem)]
    exact h.pending i (mem_cons_of_mem _ hmem)
  case dest_eq =>
    intro i
    by_cases hii : i = index
    · subst hii; simp [hself]
    · simp only [hinv i hii]
      rw [hothers i hii]
      simp [h.dest_eq i, hii]
  case src_ne_dest =>
    intro i hmem
    by_cases hii : i = index
    · subst hii; rw [hself]; exact (g.dest_ne_invalid i).symm
    have hmem' : i ∉ index :: q :: stack := by simp_all
    have hsrc := h.src_ne_dest i hmem'
    rw [hothers i hii]
    unfold redirect
    split
    · exact (g.dest_injective.ne hii).symm
    · rw [if_neg (hblock i hmem')]; exact hsrc
  case chain =>
    -- A pending move below `q` reads the destination of its own caller, which is neither `q` nor
    -- `index`, so the redirection does not touch it.
    have hchain := (isChain_cons_cons.mp h.chain).2
    refine hchain.imp_of_mem_tail_imp fun p s hp hs hps => ?_
    have hsq : g.dest s ≠ g.dest q := by
      refine g.dest_injective.ne fun heq => ?_
      exact (nodup_cons.mp hnodup).1 (heq ▸ hs)
    have hsi : g.dest s ≠ g.dest index :=
      g.dest_injective.ne (hne s (mem_cons_of_mem _ hs))
    rw [hothers p (hne p hp), redirect, hps, if_neg hsq, if_neg hsi]
  case performed =>
    intro i hs
    rw [hcurrent]
    by_cases hii : i = index
    · subst hii
      rw [Transfer.exec_swap_right, ← hcaller]
      exact h.waiting i (h.pending i (by simp))
    rw [hinv i hii] at hs
    have hiq : i ≠ q := by
      rintro rfl
      exact h.pending i (by simp) hs
    rw [Transfer.exec_swap_of_ne (g.dest_injective.ne hiq) (g.dest_injective.ne hii)]
    exact h.performed i hs
  case waiting =>
    intro i hs
    by_cases hii : i = index
    · subst hii; rw [hself] at hs; exact absurd rfl hs
    · rw [Ne, hinv i hii] at hs
      rw [hothers i hii, hcurrent, exec_swap_redirect]
      exact h.waiting i hs
  case frame =>
    intro l hl
    rw [hcurrent, Transfer.exec_swap_of_ne (hl q).symm (hl index).symm]
    exact h.frame l hl
  case constant =>
    intro i hs
    by_cases hii : i = index
    · subst hii; rw [hself] at hs; exact absurd rfl hs
    · rw [Ne, hinv i hii] at hs
      rw [hothers i hii, redirect_isConstant (g.dest_not_constant _) (g.dest_not_constant _)]
      exact h.constant i hs

end Resolver

end DartVm
