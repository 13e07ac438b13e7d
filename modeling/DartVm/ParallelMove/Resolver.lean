import DartVm.Library.LoopRules
import DartVm.Library.ParallelAssignment

/-! # The parallel move resolver

The model of `ParallelMoveResolver` (`flow_graph_compiler.cc`) and of the `MoveOperands` it works on
(`il.h`).  A parallel move becomes a sequence of moves and swaps by a depth-first walk: a move is
*pending* while the moves that read its destination are performed, and a pending move met again
closes a cycle, which a swap breaks.  A move is *eliminated* when both operands are invalid, and
pending when only the destination is.  A failed `ASSERT` and an exhausted recursion budget are the
two faults.

* `MoveOperands`: one move, with its state.
* `performMove`: the depth-first walk.
* `emitNativeCode`: the two loops over all moves. -/

namespace DartVm

/-- The machine places a move can name (`Location::Kind`); different values are disjoint places.
Unallocated and pair locations are resolved before a parallel move is emitted. -/
inductive Location where
  /-- `kInvalid`: the location to ignore. -/
  | invalid
  /-- `kConstantTag`: an object of the constant pool. -/
  | constant (object : ℕ)
  /-- `kRegister`: a CPU register. -/
  | register (reg : ℕ)
  /-- `kFpuRegister`: an FPU register. -/
  | fpuRegister (reg : ℕ)
  /-- `kStackSlot`: a word-sized slot. -/
  | stackSlot (stackIndex : ℤ) (base : ℕ)
  /-- `kDoubleStackSlot`: a 64-bit slot. -/
  | doubleStackSlot (stackIndex : ℤ) (base : ℕ)
  /-- `kQuadStackSlot`: a 128-bit slot. -/
  | quadStackSlot (stackIndex : ℤ) (base : ℕ)
  deriving DecidableEq, Repr

namespace Location

/-- `Location::IsConstant`. -/
def isConstant : Location → Bool
  | .constant _ => true
  | _ => false

/-- `Location::IsInvalid`. -/
def isInvalid (l : Location) : Bool := l = .invalid

@[simp] theorem isInvalid_iff (l : Location) : l.isInvalid = true ↔ l = .invalid := by
  simp [isInvalid]

end Location

/-- One move of a parallel move, from `src` to `dest`. -/
structure MoveOperands where
  dest : Location
  src : Location
  deriving DecidableEq, Repr

namespace MoveOperands

/-- `MoveOperands::IsEliminated`: both operands were cleared. -/
def isEliminated (m : MoveOperands) : Bool := m.src.isInvalid

/-- `MoveOperands::IsPending`: only the destination was cleared. -/
def isPending (m : MoveOperands) : Bool := m.dest.isInvalid && !m.src.isInvalid

/-- `MoveOperands::Blocks`: the move still has to read `loc`. -/
def blocks (m : MoveOperands) (loc : Location) : Bool := !m.isEliminated && m.src = loc

/-- `MoveOperands::IsRedundant`. -/
def isRedundant (m : MoveOperands) : Bool :=
  m.isEliminated || m.dest.isInvalid || m.src = m.dest

/-- `MoveOperands::Eliminate`. -/
def eliminate (_ : MoveOperands) : MoveOperands := ⟨.invalid, .invalid⟩

/-- The update `MoveOperands::MarkPending` makes; the destination it returns is `dest`. -/
def markPending (m : MoveOperands) : MoveOperands := { m with dest := .invalid }

/-- `MoveOperands::ClearPending`: the destination is given back. -/
def clearPending (m : MoveOperands) (dest : Location) : MoveOperands := { m with dest := dest }

/-- `MoveOperands::set_src`. -/
def setSrc (m : MoveOperands) (src : Location) : MoveOperands := { m with src := src }

end MoveOperands

/-- What stops the resolver before it has emitted everything. -/
inductive ResolverFault where
  | assertion
  /-- The recursion of `PerformMove` is deeper than the budget. -/
  | outOfFuel
  deriving DecidableEq, Repr

/-- `ASSERT(condition)`. -/
def assertThat (condition : Bool) : Except ResolverFault Unit :=
  if condition then .ok () else .error .assertion

@[simp] theorem assertThat_true : assertThat true = .ok () := rfl

/-- The resolver's worklist `moves_` of `n` moves together with the code emitted so far. -/
structure Resolver (n : ℕ) where
  moves : Fin n → MoveOperands
  /-- The instructions emitted, first one first. -/
  code : List (Transfer Location)

namespace Resolver

variable {n : ℕ}

/-- Replace the operands at one index. -/
def setMove (r : Resolver n) (index : Fin n) (m : MoveOperands) : Resolver n :=
  { r with moves := Function.update r.moves index m }

/-- Append one instruction to the code. -/
def emit (r : Resolver n) (instr : Transfer Location) : Resolver n :=
  { r with code := r.code ++ [instr] }

/-- `ParallelMoveResolver::EmitMove`: emit the copy and remove the move from the graph. -/
def emitMove (r : Resolver n) (index : Fin n) : Resolver n :=
  let move := r.moves index
  (r.emit (.move move.dest move.src)).setMove index move.eliminate

/-- The last loop of `EmitSwap`: every unperformed move, pending or not, that read one of the
exchanged locations now reads the other. -/
def redirectSources (r : Resolver n) (source destination : Location) : Resolver n :=
  { r with moves := fun i =>
      if (r.moves i).blocks source then (r.moves i).setSrc destination
      else if (r.moves i).blocks destination then (r.moves i).setSrc source
      else r.moves i }

/-- `ParallelMoveResolver::EmitSwap`: exchange source and destination, which performs the move, and
redirect the other moves. -/
def emitSwap (r : Resolver n) (index : Fin n) : Resolver n :=
  let move := r.moves index
  ((r.emit (.swap move.src move.dest)).setMove index move.eliminate).redirectSources
    move.src move.dest

/-- What `PerformMove` does once the moves it waits for are performed: drop the move if a swap has
put its value in place, break a cycle by a swap if a pending move reads the destination, and move
otherwise. -/
def resolve (r : Resolver n) (index : Fin n) (destination : Location) :
    Except ResolverFault (Resolver n) :=
  let r := r.setMove index ((r.moves index).clearPending destination)
  if (r.moves index).src = destination then
    .ok (r.setMove index (r.moves index).eliminate)
  else
    match (List.finRange n).find? fun i => (r.moves i).blocks destination with
    | some i => do
        assertThat (r.moves i).isPending
        return r.emitSwap index
    | none => .ok (r.emitMove index)

/-- `ParallelMoveResolver::PerformMove`, with a budget for the depth of the recursion. -/
def performMove : ℕ → Resolver n → Fin n → Except ResolverFault (Resolver n)
  | 0, _, _ => .error .outOfFuel
  | fuel + 1, r, index => do
      assertThat !(r.moves index).isPending
      assertThat !(r.moves index).isRedundant
      assertThat !(r.moves index).src.isInvalid
      let destination := (r.moves index).dest
      let r := r.setMove index (r.moves index).markPending
      -- Perform the unpending moves that read the destination.
      let r ← (List.finRange n).foldlM (fun r i =>
        if (r.moves i).blocks destination && !(r.moves i).isPending then performMove fuel r i
        else .ok r) r
      r.resolve index destination

end Resolver

/-- `ParallelMoveResolver::BuildInitialMoveList`: the operands that are not redundant. -/
def buildInitialMoveList (parallelMove : List MoveOperands) : List MoveOperands :=
  parallelMove.filter fun move => !move.isRedundant

open Resolver in
/-- `EmitNativeCode`: the moves that read a machine location first, the moves of constants last. -/
def emitNativeCode (fuel : ℕ) (parallelMove : List MoveOperands) :
    Except ResolverFault (List (Transfer Location)) := do
  let moves := buildInitialMoveList parallelMove
  let r : Resolver moves.length := ⟨moves.get, []⟩
  let r ← (List.finRange moves.length).foldlM (fun r i =>
    if !(r.moves i).isEliminated && !(r.moves i).src.isConstant then performMove fuel r i
    else .ok r) r
  let r ← (List.finRange moves.length).foldlM (fun r i =>
    if !(r.moves i).isEliminated then do
      assertThat (r.moves i).src.isConstant
      return r.emitMove i
    else .ok r) r
  return r.code

end DartVm
