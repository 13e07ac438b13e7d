import DartVm.BigInt.Bitwise
import DartVm.BigInt.Shifts
import Mathlib.Data.Rat.Floor

/-! # The operators compute with integers

* `YieldsBits`: what an operator on bits has to return.
* `operators_correct`: all operators at once, for operands in normal form. -/

namespace DartVm.BigInt

open Postcondition BigIntImpl

/-- A big integer in normal form with the bits `bits`, in two's complement without
end, is returned. -/
def YieldsBits (c : Option BigIntImpl) (bits : ℕ → Bool) : Prop :=
  Returns False c fun r => r.IsNormal ∧ ∀ k, r.toInt.testBit k = bits k

/-- What is computed has the bits of its value. -/
theorem Yields.bits {c : Option BigIntImpl} {v : ℤ} {bits : ℕ → Bool} (h : Yields c v)
    (hbits : ∀ k, v.testBit k = bits k) : YieldsBits c bits :=
  h.mono fun _ hr => ⟨hr.1, fun k => by rw [hr.2, hbits]⟩

/-- **The operators of big integers** return what they stand for, in normal form, for operands in
it. -/
theorem operators_correct (a b : NormalForm) (n : ℕ) :
    Yields (add a.toBigIntImpl b.toBigIntImpl) (a.toInt + b.toInt) ∧
    Yields (sub a.toBigIntImpl b.toBigIntImpl) (a.toInt - b.toInt) ∧
    Yields (neg a.toBigIntImpl) (-a.toInt) ∧
    Yields (mul a.toBigIntImpl b.toBigIntImpl) (a.toInt * b.toInt) ∧
    Yields (shiftLeft a.toBigIntImpl n) (a.toInt * 2 ^ n) ∧
    Yields (shiftRight a.toBigIntImpl n) ⌊(a.toInt : ℚ) / 2 ^ n⌋ ∧
    YieldsBits (bitAnd a.toBigIntImpl b.toBigIntImpl)
      (fun k => a.toInt.testBit k && b.toInt.testBit k) ∧
    YieldsBits (bitOr a.toBigIntImpl b.toBigIntImpl)
      (fun k => a.toInt.testBit k || b.toInt.testBit k) ∧
    YieldsBits (bitXor a.toBigIntImpl b.toBigIntImpl)
      (fun k => a.toInt.testBit k ^^ b.toInt.testBit k) ∧
    YieldsBits (bitNot a.toBigIntImpl) (fun k => !a.toInt.testBit k) ∧
    Returns False (compareTo a.toBigIntImpl b.toBigIntImpl)
      fun c => (c < 0 ↔ a.toInt < b.toInt) ∧ (0 < c ↔ b.toInt < a.toInt) := by
  have ha := a.isNormal
  have hb := b.isNormal
  refine ⟨add_spec ha hb, sub_spec ha hb, neg_spec ha, mul_spec ha hb, shiftLeft_spec ha, ?_,
    (bitAnd_spec ha hb).bits (Int.testBit_land _ _), (bitOr_spec ha hb).bits (Int.testBit_lor _ _),
    (bitXor_spec ha hb).bits (Int.testBit_lxor _ _), (bitNot_spec ha).bits (Int.testBit_lnot _),
    compareTo_spec ha hb⟩
  refine (shiftRight_spec ha).of_eq ?_
  have hfloor := Rat.floor_intCast_div_natCast a.toInt (2 ^ n)
  push_cast at hfloor
  exact hfloor.symm

end DartVm.BigInt
