import DartVm.Library.Postcondition
import Mathlib.Data.List.Range

/-! # Loops that count

A `for` loop that counts up from `lo` is `List.foldlM` over `List.range' lo n`, one that counts down
to zero is `List.foldlM` over the reversed `List.range n`.  The rules here take an invariant indexed
by the loop variable.

* `returns_up`, `returns_down`: the rules for counting up and down. -/

namespace DartVm.CountedLoop

open Postcondition

variable {σ : Type} {abort : Prop} {body : σ → ℕ → Option σ} {s : σ}

/-- **Counting up** from `lo` over `n` indices: `inv i` holds before the iteration for `i`. -/
theorem returns_up (inv : ℕ → σ → Prop) {lo n : ℕ} (hinit : inv lo s)
    (hstep : ∀ i s, lo ≤ i → i < lo + n → inv i s → Returns abort (body s i) (inv (i + 1))) :
    Returns abort ((List.range' lo n).foldlM body s) (inv (lo + n)) := by
  induction n generalizing lo s with
  | zero => exact hinit
  | succ n ih =>
    apply (hstep lo s le_rfl (by omega) hinit).bind
    intro s' hs'
    rw [show lo + (n + 1) = lo + 1 + n by omega]
    exact ih hs' fun i t hlo hi => hstep i t (by omega) (by omega)

/-- **Counting down** to zero: `inv (i + 1)` holds before the iteration for `i`. -/
theorem returns_down (inv : ℕ → σ → Prop) {n : ℕ} (hinit : inv n s)
    (hstep : ∀ i s, i < n → inv (i + 1) s → Returns abort (body s i) (inv i)) :
    Returns abort ((List.range n).reverse.foldlM body s) (inv 0) := by
  induction n generalizing s with
  | zero => exact hinit
  | succ n ih =>
    rw [List.range_succ, List.reverse_append, List.reverse_singleton, List.singleton_append,
      List.foldlM_cons]
    apply (hstep n s (by omega) hinit).bind
    intro s' hs'
    exact ih hs' fun i t hi => hstep i t (by omega)

end DartVm.CountedLoop
