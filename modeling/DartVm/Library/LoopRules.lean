import Mathlib.Data.List.FinRange

/-! # Invariant rules for bounded loops

A `for` loop over a fixed index list whose body may fail is `List.foldlM` in `Except`.  The rules
turn an invariant indexed by the visited part into a fact about the whole loop, and into its
success.

* `foldlM_ok_of_inv`: a loop whose steps succeed under the invariant.
* `foldlM_some_inv`: what a loop that has succeeded leaves behind. -/

namespace DartVm.Loop

universe v

variable {α σ ε : Type*}

@[simp] theorem ok_bind {α β : Type v} (a : α) (f : α → Except ε β) :
    ((Except.ok a : Except ε α) >>= f) = f a := rfl

/-- **The invariant rule of a fallible loop.** If the body succeeds from every state with the
invariant for the visited prefix, and restores it for the prefix with the current element, the loop
succeeds with the invariant for the whole list. -/
theorem foldlM_ok_of_inv (body : σ → α → Except ε σ) (inv : List α → σ → Prop) (l : List α)
    (step : ∀ done a rest s, l = done ++ a :: rest → inv done s →
      ∃ s', body s a = .ok s' ∧ inv (done ++ [a]) s')
    (s : σ) (init : inv [] s) :
    ∃ s', l.foldlM body s = .ok s' ∧ inv l s' := by
  -- The induction is on the part still to visit, with the visited prefix generalized.
  suffices key : ∀ rest done s, l = done ++ rest → inv done s →
      ∃ s', rest.foldlM body s = .ok s' ∧ inv l s' from key l [] s rfl init
  intro rest
  induction rest with
  | nil =>
    intro done s hl hinv
    rw [List.append_nil] at hl
    exact ⟨s, rfl, hl ▸ hinv⟩
  | cons a rest ih =>
    intro done s hl hinv
    obtain ⟨s₁, hbody, hinv1⟩ := step done a rest s hl hinv
    obtain ⟨s₂, hrest, hinv2⟩ := ih (done ++ [a]) s₁ (by rw [hl]; simp) hinv1
    refine ⟨s₂, ?_, hinv2⟩
    rw [List.foldlM_cons, hbody]
    exact hrest

/-- A loop that can fail, and has not, keeps what every iteration keeps. -/
theorem foldlM_some_inv {α σ : Type*} {body : σ → α → Option σ} {inv : σ → Prop} {l : List α}
    (step : ∀ a ∈ l, ∀ s s', inv s → body s a = some s' → inv s') {s s' : σ}
    (h : l.foldlM body s = some s') (init : inv s) : inv s' := by
  induction l generalizing s with
  | nil =>
    cases h
    exact init
  | cons a l ih =>
    obtain ⟨s₁, h1, h2⟩ := Option.bind_eq_some_iff.mp h
    exact ih (fun b hb => step b (List.mem_cons_of_mem a hb)) h2
      (step a List.mem_cons_self s s₁ init h1)

end DartVm.Loop
