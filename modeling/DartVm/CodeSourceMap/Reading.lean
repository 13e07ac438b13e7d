import DartVm.CodeSourceMap.Builder

/-! # Reading operations

What `GetInlinedFunctionsAt` does with the bytes of a list of operations.  Operations that do not
advance the pc offset are executed one after the other; an operation that advances it past the pc
offset in question ends the loop.

* `readLoop_eq`: the loop of the reader executes the instructions that were written. -/

namespace DartVm.CodeSourceMap

open DataStream

variable {F : Type} {functions : List F} {r : Reader F} {pc : ℤ} {bytes : List Byte}

/-- An operation with its argument. -/
abbrev Instr := Opcode × ℤ

/-- The bytes of a list of operations. -/
def bytesOf : List Instr → Option (List Byte)
  | [] => some []
  | (op, arg) :: ops => do
    let bytes ← writeOp op arg
    let rest ← bytesOf ops
    some (bytes ++ rest)

/-- Code is written piece by piece. -/
theorem bytesOf_append {ops ops' : List Instr} {bytes bytes' : List Byte}
    (h : bytesOf ops = some bytes) (h' : bytesOf ops' = some bytes') :
    bytesOf (ops ++ ops') = some (bytes ++ bytes') := by
  induction ops generalizing bytes with
  | nil =>
    obtain rfl : [] = bytes := Option.some.inj h
    exact h'
  | cons x ops ih =>
    obtain ⟨op, arg⟩ := x
    simp only [bytesOf, Option.bind_eq_bind, Option.bind_eq_some_iff] at h
    obtain ⟨new, hnew, rest, hrest, heq⟩ := h
    obtain rfl := Option.some.inj heq
    simp only [List.cons_append, bytesOf, hnew, ih hrest, Option.bind_eq_bind, Option.bind_some,
      List.append_assoc]

/-- Every instruction takes a byte at least, so reading makes progress. -/
theorem length_pos_of_writeOp {op : Opcode} {arg : ℤ}
    (h : writeOp op arg = some bytes) : 0 < bytes.length := by
  rcases bytes with _ | ⟨b, bytes⟩
  · -- Nothing can be read from no bytes.
    exact absurd (readOp_writeOp h 0 []) (by simp [readOp, DataStream.read, readMarked, readByte])
  · exact Nat.succ_pos _

/-- Executes an operation. -/
def execInstr (functions : List F) (r : Reader F) (x : Instr) : Option (Reader F) :=
  r.exec functions x.1 (BitVec.ofInt 32 x.2)

/-- The loop of `GetInlinedFunctionsAt` on operations. -/
def readOps (functions : List F) (pc : ℤ) : Reader F → List Instr → Option (Reader F)
  | r, [] => some r
  | r, x :: ops => do
    let r ← execInstr functions r x
    if x.1 = .advancePC ∧ r.currentPcOffset > pc then some r else readOps functions pc r ops

/-- **The loop of the reader** executes the instructions that were written. -/
theorem readLoop_eq {ops : List Instr} (h : bytesOf ops = some bytes)
    {fuel : ℕ} (hfuel : bytes.length ≤ fuel) (position : ℕ) :
    readLoop functions pc fuel ⟨position, bytes⟩ r = readOps functions pc r ops := by
  induction ops generalizing bytes fuel position r with
  | nil =>
    obtain rfl : [] = bytes := Option.some.inj h
    cases fuel <;> simp [readLoop, readOps]
  | cons x ops ih =>
    obtain ⟨op, arg⟩ := x
    simp only [bytesOf, Option.bind_eq_bind, Option.bind_eq_some_iff] at h
    obtain ⟨new, hnew, rest, hrest, heq⟩ := h
    obtain rfl := Option.some.inj heq
    have hpos := length_pos_of_writeOp hnew
    rw [List.length_append] at hfuel
    obtain ⟨fuel, rfl⟩ : ∃ n, fuel = n + 1 := ⟨fuel - 1, by omega⟩
    rw [readLoop, if_pos (show (new ++ rest).length > 0 by rw [List.length_append]; omega),
      readOp_writeOp hnew, readOps]
    change (execInstr functions r (op, arg) >>= _) = _
    apply bind_congr
    intro r'
    rw [ih hrest (by omega)]

/-- Instructions that do not advance are executed before the offset is looked at. -/
theorem readOps_append {script ops : List Instr} {r' : Reader F}
    (hscript : ∀ x ∈ script, x.1 ≠ .advancePC)
    (h : script.foldlM (execInstr functions) r = some r') :
    readOps functions pc r (script ++ ops) = readOps functions pc r' ops := by
  induction script generalizing r with
  | nil =>
    obtain rfl : r = r' := Option.some.inj h
    rfl
  | cons x script ih =>
    rw [List.forall_mem_cons] at hscript
    rw [List.foldlM_cons, Option.bind_eq_bind, Option.bind_eq_some_iff] at h
    obtain ⟨r₁, hr1, h⟩ := h
    rw [List.cons_append, readOps, hr1, Option.bind_eq_bind, Option.bind_some,
      if_neg fun hadvance => hscript.1 hadvance.1]
    exact ih hscript.2 h

end DartVm.CodeSourceMap
