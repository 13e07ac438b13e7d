import Mathlib.Data.List.Basic

/-! # Code with forward jumps

Straight-line code of tests that jump to a label, jumps and labels, where a jump only leads forward:
to the place behind it that binds its label, or out of the code.  `exec` runs such code from its
start or from a pending jump, and `exec_append` composes runs.

* `exec`: the label at which code is left.
* `exec_append`: runs compose.
* `Goes`: code that goes to a label, or to the next instruction instead. -/

namespace DartVm.ForwardCode

variable {Label Test : Type}

/-- An instruction. -/
inductive Instr (Label Test : Type) where
  | branch (test : Test) (label : Label)
  | goTo (label : Label)
  | bind (label : Label)
deriving DecidableEq, Repr

/-- The label an instruction jumps to. -/
def Instr.target : Instr Label Test → Option Label
  | .branch _ label => some label
  | .goTo label => some label
  | .bind _ => none

/-- Whether code jumps to a label. -/
def isLinked [DecidableEq Label] (code : List (Instr Label Test)) (label : Label) : Bool :=
  code.any fun i => i.target = some label

variable {code : List (Instr Label Test)} {label : Label}

/-- A label is linked by the first instruction or by the rest. -/
theorem isLinked_cons [DecidableEq Label]
    {i : Instr Label Test} :
    isLinked (i :: code) label ↔ i.target = some label ∨ isLinked code label := by
  rw [isLinked, List.any_cons, Bool.or_eq_true, decide_eq_true_eq]
  rfl

/-- A label is linked by one of two pieces of code. -/
theorem isLinked_append [DecidableEq Label] {code' : List (Instr Label Test)} :
    isLinked (code ++ code') label ↔ isLinked code label ∨ isLinked code' label := by
  rw [isLinked, List.any_append, Bool.or_eq_true]
  rfl

theorem not_isLinked_nil [DecidableEq Label] :
    ¬isLinked ([] : List (Instr Label Test)) label := Bool.false_ne_true

/-- The labels that code binds. -/
def binds : List (Instr Label Test) → List Label
  | [] => []
  | .bind label :: code => label :: binds code
  | _ :: code => binds code

@[simp] theorem binds_nil : binds ([] : List (Instr Label Test)) = [] := rfl

@[simp] theorem binds_branch (test : Test) (label : Label) (code : List (Instr Label Test)) :
    binds (.branch test label :: code) = binds code := rfl

@[simp] theorem binds_goTo (label : Label) (code : List (Instr Label Test)) :
    binds (.goTo label :: code) = binds code := rfl

@[simp] theorem binds_bind (label : Label) (code : List (Instr Label Test)) :
    binds (.bind label :: code) = label :: binds code := rfl

@[simp] theorem binds_append (code code' : List (Instr Label Test)) :
    binds (code ++ code') = binds code ++ binds code' := by
  induction code with
  | nil => rfl
  | cons i code ih => cases i <;> simp [ih]

variable [DecidableEq Label] (holds : Test → Bool)

/-- One instruction. The state is the label of a pending jump, and `none` where the code runs. -/
def step : Option Label → Instr Label Test → Option Label
  | none, .branch test label => if holds test then some label else none
  | none, .goTo label => some label
  | none, .bind _ => none
  | some pending, .bind label => if pending = label then none else some pending
  | some pending, _ => some pending

/-- **Run of code**: the label of the jump that leaves it, or `none` where it runs off its end. -/
def exec (state : Option Label) (code : List (Instr Label Test)) : Option Label :=
  code.foldl (step holds) state

variable {holds}

@[simp] theorem exec_nil (state : Option Label) :
    exec holds state ([] : List (Instr Label Test)) = state := rfl

@[simp] theorem exec_branch (test : Test) (label : Label) (code : List (Instr Label Test)) :
    exec holds none (.branch test label :: code) =
      exec holds (if holds test then some label else none) code := rfl

@[simp] theorem exec_goTo (label : Label) (code : List (Instr Label Test)) :
    exec holds none (.goTo label :: code) = exec holds (some label) code := rfl

@[simp] theorem exec_bind (label : Label) (code : List (Instr Label Test)) :
    exec holds none (.bind label :: code) = exec holds none code := rfl

/-- A pending jump ends at its label. -/
theorem exec_pending_bind (pending label : Label) (code : List (Instr Label Test)) :
    exec holds (some pending) (.bind label :: code) =
      exec holds (if pending = label then none else some pending) code := rfl

/-- Two pieces of code after one another. -/
theorem exec_append (state : Option Label) (code code' : List (Instr Label Test)) :
    exec holds state (code ++ code') = exec holds (exec holds state code) code' :=
  List.foldl_append ..

/-- A pending jump passes code that does not bind its label. -/
theorem exec_of_notMem {pending : Label}
    (h : pending ∉ binds code) : exec holds (some pending) code = some pending := by
  induction code with
  | nil => rfl
  | cons i code ih =>
    cases i with
    | branch test label | goTo label => exact ih h
    | bind label =>
      rw [binds_bind, List.mem_cons, not_or] at h
      rw [exec_pending_bind, if_neg h.1]
      exact ih h.2

/-- Where code jumps to, it has a link to. -/
theorem isLinked_of_exec {state : Option Label}
    (h : exec holds state code = some label) : state = some label ∨ isLinked code label := by
  induction code generalizing state with
  | nil => exact Or.inl h
  | cons i code ih =>
    rw [isLinked_cons]
    rcases ih h with hstep | hlinked
    · -- The step does not bind the label: it keeps the pending jump or makes a new one.
      cases state with
      | some pending =>
        left
        cases i with
        | bind label' =>
          rw [step] at hstep
          split at hstep
          · exact absurd hstep (by simp)
          · exact hstep
        | branch test label' | goTo label' => exact hstep
      | none =>
        right; left
        cases i with
        | bind label' => exact absurd hstep (by simp [step])
        | branch test label' =>
          rw [step] at hstep
          split at hstep
          · exact hstep
          · exact absurd hstep (by simp)
        | goTo label' => exact hstep
    · exact Or.inr (Or.inr hlinked)

variable (holds)

/-- Running the code leads to the label, where its end counts as the label `fallThrough`. -/
def Goes (code : List (Instr Label Test)) (fallThrough label : Label) : Prop :=
  exec holds none code = some label ∨ (exec holds none code = none ∧ label = fallThrough)

variable {holds} {fallThrough : Label}

/-- Code that goes to another label than the next one jumps there. -/
theorem Goes.exec_eq (h : Goes holds code fallThrough label)
    (hne : label ≠ fallThrough) : exec holds none code = some label :=
  h.resolve_right fun hend => hne hend.2

/-- Code that goes to the next label without a link falls through. -/
theorem Goes.exec_eq_none (h : Goes holds code fallThrough fallThrough)
    (hlinked : isLinked code fallThrough = false) : exec holds none code = none := by
  rcases h with hjump | ⟨hend, -⟩
  · rcases isLinked_of_exec hjump with h | h
    · exact absurd h (by simp)
    · exact absurd h (by simp [hlinked])
  · exact hend

/-- A branch goes to its label or to the next one. -/
theorem goes_branch (test : Test) (label fallThrough : Label) :
    Goes holds [.branch test label] fallThrough (if holds test then label else fallThrough) := by
  by_cases h : holds test
  · rw [if_pos h]
    exact Or.inl (by rw [exec_branch, if_pos h, exec_nil])
  · rw [if_neg h]
    exact Or.inr ⟨by rw [exec_branch, if_neg h, exec_nil], rfl⟩

/-- A test leads to its label or else to another one, with a jump unless that is the end. -/
theorem goes_branch_else (test : Test) (label other fallThrough : Label) :
    Goes holds (.branch test label :: if other ≠ fallThrough then [.goTo other] else []) fallThrough
      (if holds test then label else other) := by
  by_cases hother : other = fallThrough
  · rw [if_neg (not_not.mpr hother), hother]
    exact goes_branch test label fallThrough
  · rw [if_pos hother]
    left
    rw [exec_branch]
    split <;> rfl

end DartVm.ForwardCode
