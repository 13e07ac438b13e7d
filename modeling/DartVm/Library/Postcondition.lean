import Mathlib.Order.Basic

/-! # Postconditions of computations that may abort

`Returns abort x post` says what a computation `x : Option α` does: it returns a value with `post`,
or it fails and then `abort` holds.  With `abort = False` this is total correctness.  The rules
follow the shape of the program.

* `Returns.mono`, `Returns.bind`, `returns_ite`: consequence, sequencing and choice.
* `returns_foldlM`, `returns_foldlM_done`: loops over a list. -/

namespace DartVm.Postcondition

universe u

variable {α β σ : Type u} {abort : Prop} {post : α → Prop} {body : σ → α → Option σ} {x : Option α}
  {k : α → Option β} {a : α} {l : List α} {s : σ}

/-- The computation returns a value with `post`, or aborts. -/
def Returns (abort : Prop) (x : Option α) (post : α → Prop) : Prop :=
  match x with
  | some a => post a
  | none => abort

@[simp] theorem returns_some : Returns abort (some a) post ↔ post a :=
  Iff.rfl

@[simp] theorem returns_none : Returns abort none post ↔ abort := Iff.rfl

section

variable {x : Option α} {post : α → Prop} (h : Returns abort x post)
include h

/-- The postcondition of a value that has been returned. -/
theorem Returns.of_eq_some (hx : x = some a) : post a := by
  rwa [hx] at h

/-- **Consequence**: the postcondition may be weakened. -/
theorem Returns.mono {post' : α → Prop}
    (hpost : ∀ a, post a → post' a) : Returns abort x post' := by
  cases x with
  | none => exact h
  | some a => exact hpost a h

/-- Consequence: stopping may be allowed more often. -/
theorem Returns.mono_abort {abort' : Prop} (habort : abort → abort') : Returns abort' x post := by
  cases x with
  | none => exact habort h
  | some a => exact h

/-- The postcondition may mention where the value comes from. -/
theorem Returns.with_eq : Returns abort x fun a => x = some a ∧ post a := by
  cases x with
  | none => exact h
  | some a => exact ⟨rfl, h⟩

end

/-- A computation that may not stop returns. -/
theorem Returns.exists_eq_some (h : Returns False x post) :
    ∃ a, x = some a ∧ post a := by
  cases x with
  | none => exact h.elim
  | some a => exact ⟨a, rfl, h⟩

/-- What exists unless the computation aborts can be named beforehand. -/
theorem exists_of_not_abort {ι : Type*} [Nonempty ι] {p : ι → Prop} (h : ¬ abort → ∃ i, p i) :
    ∃ i, ¬ abort → p i := by
  by_cases habort : abort
  · exact ⟨Classical.arbitrary ι, absurd habort⟩
  · obtain ⟨i, hi⟩ := h habort
    exact ⟨i, fun _ => hi⟩

/-- **Sequencing.** -/
theorem Returns.bind {mid : α → Prop} {post : β → Prop}
    (h : Returns abort x mid) (hk : ∀ a, mid a → Returns abort (k a) post) :
    Returns abort (x >>= k) post := by
  cases x with
  | none => exact h
  | some a => exact hk a h

/-- Going on after a computation whose result is known. -/
theorem returns_bind_of_eq {post : β → Prop}
    (hx : x = some a) (hk : Returns abort (k a) post) : Returns abort (x >>= k) post := by
  rw [hx]
  exact hk

/-- Whatever the first computation returns, the second one has the postcondition. -/
theorem returns_bind_of_forall {post : β → Prop} (hk : ∀ a, Returns True (k a) post) :
    Returns True (x >>= k) post := by
  cases x with
  | none => trivial
  | some a => exact hk a

/-- **Choice.** -/
theorem returns_ite {c : Prop} [Decidable c] {x y : Option α}
    (hx : c → Returns abort x post) (hy : ¬c → Returns abort y post) :
    Returns abort (if c then x else y) post := by
  split_ifs with hc
  · exact hx hc
  · exact hy hc

/-- **Loops over a list.** The invariant is about the elements that are left. -/
theorem returns_foldlM (inv : List α → σ → Prop)
    (hinit : inv l s)
    (hstep : ∀ a l s, inv (a :: l) s → Returns abort (body s a) (inv l)) :
    Returns abort (l.foldlM body s) (inv []) := by
  induction l generalizing s with
  | nil => exact hinit
  | cons a l ih =>
    apply (hstep a l s hinit).bind
    intro s' hs'
    exact ih hs'

/-- **Loops over a list**, where the invariant is about the elements that are done, the last one
first. -/
theorem returns_foldlM_done (inv : List α → σ → Prop)
    (hinit : inv [] s)
    (hstep : ∀ done a rest s, l = done.reverse ++ a :: rest → inv done s →
      Returns abort (body s a) (inv (a :: done))) :
    Returns abort (l.foldlM body s) (inv l.reverse) := by
  refine (returns_foldlM (fun rest s => ∃ done, l = done.reverse ++ rest ∧ inv done s)
    ⟨[], rfl, hinit⟩ ?_).mono ?_
  · rintro a rest s ⟨done, hl, hdone⟩
    refine (hstep done a rest s hl hdone).mono fun s' hs' => ⟨a :: done, ?_, hs'⟩
    rw [hl, List.reverse_cons, List.append_assoc]
    rfl
  · rintro s' ⟨done, rfl, hdone⟩
    simpa using hdone

end DartVm.Postcondition
