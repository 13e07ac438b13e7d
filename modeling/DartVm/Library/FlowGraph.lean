import Mathlib.Data.Set.Basic
import Mathlib.Data.Nat.Find

/-! # Flow graphs, dominance and executions

A flow graph is an entry vertex and an edge relation, over any vertex type.

* `Dominates` is stated through reachability that avoids a vertex, and is a preorder.
* `IsTrace f n` says that `f 0, …, f n` is an execution.  By `visit_since`, a vertex between a
  dominator and the current vertex has been visited since the dominator was.
* `IsNaturalLoop` and `iteration` describe loops and count iterations. -/

namespace DartVm.Flow

open Relation

variable {V : Type*}

/-- **Flow graph.** An entry vertex and the edges control may follow. -/
structure FlowGraph (V : Type*) where
  entry : V
  edge : V → V → Prop

namespace FlowGraph

variable {G : FlowGraph V} {a b c : V}

/-- `b` can be reached from the entry along vertices other than `a`. -/
def ReachableAvoiding (G : FlowGraph V) (a b : V) : Prop :=
  G.entry ≠ a ∧ ReflTransGen (fun x y => G.edge x y ∧ y ≠ a) G.entry b

/-- **Dominance.** Every way from the entry to `b` passes `a`. -/
def Dominates (G : FlowGraph V) (a b : V) : Prop := ¬ G.ReachableAvoiding a b

/-- What can be reached without `a` is not `a`. -/
theorem ReachableAvoiding.ne (h : G.ReachableAvoiding a b) : b ≠ a := by
  obtain ⟨hentry, hpath⟩ := h
  rcases hpath.cases_tail with heq | ⟨x, -, -, hne⟩
  · exact heq ▸ hentry
  · exact hne

/-- The entry can be reached without any other vertex. -/
theorem ReachableAvoiding.entry (h : G.entry ≠ a) : G.ReachableAvoiding a G.entry :=
  ⟨h, .refl⟩

/-- A way that avoids a vertex can be continued. -/
theorem ReachableAvoiding.step (h : G.ReachableAvoiding a b) (he : G.edge b c) (hne : c ≠ a) :
    G.ReachableAvoiding a c :=
  ⟨h.1, h.2.tail ⟨he, hne⟩⟩

/-- A set with the entry that is closed under the edges avoiding `a` holds all that is reachable
without `a`. -/
theorem ReachableAvoiding.mem_of_closed {S : Set V} (hentry : G.entry ∈ S)
    (hstep : ∀ x y, x ∈ S → G.edge x y → y ≠ a → y ∈ S) (h : G.ReachableAvoiding a b) : b ∈ S := by
  obtain ⟨-, hpath⟩ := h
  induction hpath with
  | refl => exact hentry
  | tail _ hxy ih => exact hstep _ _ ih hxy.1 hxy.2

theorem Dominates.refl (a : V) : G.Dominates a a := fun h => h.ne rfl

/-- A vertex that `b` dominates is out of reach without `b`; so a way that avoids `a` avoids `b` as
well or leads to it. -/
theorem ReachableAvoiding.through (h : G.ReachableAvoiding a c) (b : V) :
    G.ReachableAvoiding b c ∨ G.ReachableAvoiding a b := by
  obtain ⟨hentry, hpath⟩ := h
  induction hpath with
  | refl =>
    by_cases hb : G.entry = b
    · exact .inr (hb ▸ .entry hentry)
    · exact .inl (.entry hb)
  | @tail x y hx hxy ih =>
    rcases ih with ih | ih
    · by_cases hb : y = b
      · exact .inr (hb ▸ ⟨hentry, hx.tail hxy⟩)
      · exact .inl (ih.step hxy.1 hb)
    · exact .inr ih

theorem Dominates.trans (hab : G.Dominates a b) (hbc : G.Dominates b c) : G.Dominates a c :=
  fun h => (h.through b).elim hbc hab

end FlowGraph

/-! ## Executions -/

section Trace

variable (G : FlowGraph V) (f : ℕ → V) (n : ℕ)

/-- `f 0, …, f n` is an execution of `G`. -/
structure IsTrace : Prop where
  start : f 0 = G.entry
  step : ∀ t < n, G.edge (f t) (f (t + 1))

variable {G f n} {a b h : V} {s t : ℕ}

section

variable (tr : IsTrace G f n) (ht : t ≤ n)
include tr ht

/-- An execution that has not visited `a` shows a way that avoids `a`. -/
theorem IsTrace.reachableAvoiding (hne : ∀ r ≤ t, f r ≠ a) : G.ReachableAvoiding a (f t) := by
  induction t with
  | zero =>
    rw [tr.start]
    exact .entry (tr.start ▸ hne 0 le_rfl)
  | succ t ih =>
    exact (ih (by omega) fun r hr => hne r (by omega)).step (tr.step t (by omega))
      (hne (t + 1) le_rfl)

/-- A dominator of the current vertex has been visited. -/
theorem IsTrace.exists_visit (hdom : G.Dominates a (f t)) : ∃ s ≤ t, f s = a := by
  by_contra hnone
  push Not at hnone
  exact hdom (tr.reachableAvoiding ht hnone)

/-- An execution that avoids a vertex from some time on, as a way in the graph. -/
theorem IsTrace.reachableAvoiding_of_le (hst : s ≤ t) (hs : G.ReachableAvoiding b (f s))
    (hne : ∀ r, s ≤ r → r ≤ t → f r ≠ b) : G.ReachableAvoiding b (f t) := by
  induction t, hst using Nat.le_induction with
  | base => exact hs
  | succ t hst ih =>
    exact (ih (by omega) fun r h1 h2 => hne r h1 (by omega)).step (tr.step t (by omega))
      (hne (t + 1) (by omega) le_rfl)

/-- **Visits since a dominator.** When `h` dominates `b` and `b` the current vertex, every visit of
`h` has been followed by one of `b`. -/
theorem IsTrace.visit_since (hst : s ≤ t) (hs : f s = h) (hhb : G.Dominates h b)
    (hbt : G.Dominates b (f t)) : ∃ r, s ≤ r ∧ r ≤ t ∧ f r = b := by
  classical
  by_contra hnone
  push Not at hnone
  -- Up to its first visit of `h` the execution cannot have met `b`.
  have hex : ∃ r, f r = h := ⟨s, hs⟩
  have hfirst_le : Nat.find hex ≤ s := Nat.find_le hs
  have hfirst : ∀ r ≤ Nat.find hex, f r ≠ b := by
    intro r hr hrb
    obtain ⟨q, hq, hqh⟩ := tr.exists_visit (t := r) (by omega) (hrb ▸ hhb)
    have hqr : q = r := le_antisymm hq ((hr.trans (Nat.find_le hqh)))
    exact hnone s le_rfl hst (by rw [hs, ← hqh, hqr, hrb])
  have hreach : G.ReachableAvoiding b (f s) := by
    rw [hs, ← Nat.find_spec hex]
    exact tr.reachableAvoiding (by omega) hfirst
  exact hbt (tr.reachableAvoiding_of_le ht hst hreach hnone)

end

/-- What has been visited has been visited for a last time. -/
theorem exists_last_visit (hex : ∃ s ≤ t, f s = a) :
    ∃ s ≤ t, f s = a ∧ ∀ r, s < r → r ≤ t → f r ≠ a := by
  classical
  obtain ⟨s, hs, hsa⟩ := hex
  exact ⟨_, Nat.findGreatest_le t, Nat.findGreatest_spec (P := (f · = a)) hs hsa,
    fun r => Nat.findGreatest_is_greatest⟩

end Trace

/-! ## Natural loops -/

/-- **Natural loop.** The header dominates every block, and control enters only through it. -/
structure IsNaturalLoop (G : FlowGraph V) (header : V) (blocks : Set V) : Prop where
  header_mem : header ∈ blocks
  dominates : ∀ b ∈ blocks, G.Dominates header b
  entered : ∀ {a b}, G.edge a b → a ∉ blocks → b ∈ blocks → b = header

section Loop

variable [DecidableEq V] {G : FlowGraph V} {f : ℕ → V} {n : ℕ} {header b : V} {blocks : Set V}
variable {s t : ℕ}

/-- `b` has been executed in the iteration at time `t`: the header has not been visited since. -/
def VisitedInIteration (f : ℕ → V) (header b : V) (t : ℕ) : Prop :=
  ∃ s ≤ t, f s = b ∧ ∀ r, s < r → r ≤ t → f r ≠ header

/-- The number of the loop iteration at time `t`, counted from the last entry; meaningless outside
the loop. -/
def iteration (header : V) (inLoop : V → Bool) (f : ℕ → V) : ℕ → ℕ
  | 0 => 0
  | t + 1 =>
    if f (t + 1) = header then
      if inLoop (f t) then iteration header inLoop f t + 1 else 0
    else iteration header inLoop f t

/-- The iteration stays the same until the next visit of the header. -/
theorem iteration_eq_of_le {inLoop : V → Bool} (hst : s ≤ t)
    (hne : ∀ r, s < r → r ≤ t → f r ≠ header) :
    iteration header inLoop f t = iteration header inLoop f s := by
  induction t, hst using Nat.le_induction with
  | base => rfl
  | succ t hst ih =>
    rw [iteration, if_neg (hne (t + 1) (by omega) le_rfl)]
    exact ih fun r h1 h2 => hne r h1 (by omega)

omit [DecidableEq V] in
/-- Since the last visit of the header, an execution in the loop has been in the loop. -/
theorem IsNaturalLoop.mem_of_le (loop : IsNaturalLoop G header blocks) (tr : IsTrace G f n)
    (ht : t ≤ n) (hst : s ≤ t) (hmem : f t ∈ blocks)
    (hne : ∀ r, s < r → r ≤ t → f r ≠ header) : f s ∈ blocks := by
  induction t, hst using Nat.le_induction with
  | base => exact hmem
  | succ t hst ih =>
    refine ih (by omega) ?_ fun r h1 h2 => hne r h1 (by omega)
    by_contra hout
    exact hne (t + 1) (by omega) le_rfl (loop.entered (tr.step t (by omega)) hout hmem)

omit [DecidableEq V] in
/-- **Dominators are visited in every iteration**: a block of the loop that dominates the current
vertex has been executed in it. -/
theorem IsNaturalLoop.visitedInIteration (loop : IsNaturalLoop G header blocks)
    (tr : IsTrace G f n) (ht : t ≤ n) (hmem : f t ∈ blocks) (hb : b ∈ blocks)
    (hdom : G.Dominates b (f t)) : VisitedInIteration f header b t := by
  obtain ⟨s, hst, hs, hlast⟩ :=
    exists_last_visit (tr.exists_visit ht (loop.dominates _ hmem))
  obtain ⟨r, hsr, hrt, hr⟩ := tr.visit_since ht hst hs (loop.dominates b hb) hdom
  exact ⟨r, hrt, hr, fun q h1 h2 => hlast q (by omega) h2⟩

end Loop

end DartVm.Flow
