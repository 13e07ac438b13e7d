import DartVm.DataStream.RoundTrip

/-! # Operations of code source maps

`CodeSourceMapOps`: an operation and its argument are packed into one `int32_t`, the opcode in the
lowest three bits and the argument as a signed number in the other 29.  `Write` and `Read` are
inverse to each other on the arguments that the assertion of `Write` admits.

* `decodeArg_encode`: the argument is read back with its sign.
* `readOp_writeOp`: the round trip of an operation. -/

namespace DartVm.CodeSourceMap

open DataStream BitVec

/-- **Opcodes.** -/
inductive Opcode where
  | changePosition
  | advancePC
  | pushFunction
  | popFunction
  | nullCheck
deriving DecidableEq

/-- `kChangePosition` .. `kNullCheck`. -/
def Opcode.code : Opcode → BitVec 32
  | changePosition => 0
  | advancePC => 1
  | pushFunction => 2
  | popFunction => 3
  | nullCheck => 4

/-- The switch over the opcode; `none` is its default case. -/
def Opcode.ofCode (code : BitVec 32) : Option Opcode :=
  [changePosition, advancePC, pushFunction, popFunction, nullCheck].find? (·.code == code)

/-- `kOpBits`: the width of `OpField`. -/
def kOpBits : ℕ := 3

/-- `kMaxArgValue`. -/
def kMaxArgValue : ℤ := 2 ^ 28 - 1

/-- `kMinArgValue`. -/
def kMinArgValue : ℤ := -2 ^ 28

/-- `kSignBits`: the bits above the argument. -/
def kSignBits : BitVec 32 := 0xE0000000

/-- `OpField::mask()`. -/
def opMask : BitVec 32 := 7

/-- `ArgField::mask()`. -/
def argMask : BitVec 32 := 0x1FFFFFFF

/-- The argument of an operation is in range. -/
def ArgInRange (arg : ℤ) : Prop := kMinArgValue ≤ arg ∧ arg ≤ kMaxArgValue

instance (arg : ℤ) : Decidable (ArgInRange arg) := inferInstanceAs (Decidable (_ ∧ _))

/-- The `int32_t` of an operation and its argument. -/
def encode (op : Opcode) (arg : ℤ) : BitVec 32 :=
  let arg1 : BitVec 32 := BitVec.ofInt 32 arg
  let arg1 := if arg < 0 then arg1 &&& ~~~kSignBits else arg1
  (op.code &&& opMask) ||| ((arg1 &&& argMask) <<< kOpBits)

/-- `CodeSourceMapOps::Write`: the bytes.  `none` is a failed assertion. -/
def writeOp (op : Opcode) (arg : ℤ) : Option (List Byte) :=
  if ArgInRange arg then DataStream.write (encode op arg) else none

/-- The argument that `CodeSourceMapOps::Read` takes from the `int32_t`. -/
def decodeArg (n : BitVec 32) : BitVec 32 :=
  let arg1 := (n >>> kOpBits) &&& argMask
  if arg1.toInt > kMaxArgValue then arg1 ||| kSignBits else arg1

/-- `CodeSourceMapOps::Read`, with the switch over the opcode. -/
def readOp (st : ReadStream) : Option (Opcode × BitVec 32 × ReadStream) := do
  let (n, st) ← DataStream.read st
  let op ← Opcode.ofCode (n &&& opMask)
  some (op, decodeArg n, st)

/-! ## Round trip -/

theorem argInRange_iff {arg : ℤ} : ArgInRange arg ↔ -2 ^ 28 ≤ arg ∧ arg ≤ 2 ^ 28 - 1 := Iff.rfl

variable (op : Opcode) (arg : ℤ)

@[simp] theorem Opcode.ofCode_code : ofCode op.code = some op := by
  cases op <;> rfl

/-- Opcodes have three bits. -/
theorem Opcode.code_toNat_lt : op.code.toNat < 8 := by
  cases op <;> decide

/-- The bits of the argument that are written. -/
theorem toNat_arg :
    (((if arg < 0 then BitVec.ofInt 32 arg &&& ~~~kSignBits else BitVec.ofInt 32 arg) &&&
      argMask).toNat : ℤ) = arg % 2 ^ 29 := by
  have hmask : ∀ x : BitVec 32, (x &&& argMask).toNat = x.toNat % 2 ^ 29 := fun x =>
    Nat.and_two_pow_sub_one_eq_mod x.toNat 29
  have hsign : ∀ x : BitVec 32, (x &&& ~~~kSignBits).toNat = x.toNat % 2 ^ 29 := fun x =>
    Nat.and_two_pow_sub_one_eq_mod x.toNat 29
  rw [hmask]
  split_ifs with hneg
  · rw [hsign, toNat_ofInt]
    omega
  · rw [toNat_ofInt]
    omega

/-- The packed number is `op + 8 * arg`, with the argument cut to 29 bits. -/
theorem toNat_encode : ((encode op arg).toNat : ℤ) = op.code.toNat + 8 * (arg % 2 ^ 29) := by
  have hcode : op.code &&& opMask = op.code := by cases op <;> rfl
  have hbits := toNat_arg arg
  rw [encode, hcode]
  generalize (if arg < 0 then _ else _ : BitVec 32) &&& argMask = x at hbits ⊢
  have hshift : (x <<< kOpBits).toNat = x.toNat <<< 3 := by
    rw [toNat_shiftLeft, kOpBits, Nat.shiftLeft_eq, Nat.mod_eq_of_lt (by omega)]
  -- The two fields do not overlap, so that `|` adds them.
  rw [toNat_or, hshift, Nat.or_comm,
    ← Nat.shiftLeft_add_eq_or_of_lt op.code_toNat_lt, Nat.shiftLeft_eq, ← hbits]
  omega

/-- The opcode is in the low bits. -/
theorem and_opMask_encode : encode op arg &&& opMask = op.code := by
  apply eq_of_toNat_eq
  have hencode := toNat_encode op arg
  have hcode := op.code_toNat_lt
  rw [show (encode op arg &&& opMask).toNat = (encode op arg).toNat % 2 ^ 3 from
    Nat.and_two_pow_sub_one_eq_mod _ 3]
  omega

/-- **The argument is read back**, with its sign extended. -/
theorem decodeArg_encode (harg : ArgInRange arg) :
    decodeArg (encode op arg) = BitVec.ofInt 32 arg := by
  have hrange := argInRange_iff.mp harg
  have hencode := toNat_encode op arg
  have hcode := op.code_toNat_lt
  have hfield : ((encode op arg >>> kOpBits) &&& argMask).toNat = (arg % 2 ^ 29).toNat := by
    rw [show ((encode op arg >>> kOpBits) &&& argMask).toNat =
        (encode op arg).toNat >>> 3 % 2 ^ 29 from Nat.and_two_pow_sub_one_eq_mod _ 29,
      Nat.shiftRight_eq_div_pow]
    omega
  rw [decodeArg]
  generalize (encode op arg >>> kOpBits) &&& argMask = x at hfield ⊢
  have hint : x.toInt = arg % 2 ^ 29 := by
    rw [toInt_eq_toNat_of_lt (by omega), hfield]
    omega
  apply eq_of_toNat_eq
  rw [toNat_ofInt]
  have hmax : kMaxArgValue = 2 ^ 28 - 1 := rfl
  split_ifs with hneg
  · have hsign : kSignBits.toNat = 7 <<< 29 := rfl
    rw [toNat_or, hsign, Nat.or_comm,
      ← Nat.shiftLeft_add_eq_or_of_lt (show x.toNat < 2 ^ 29 by omega)]
    omega
  · omega

/-- **Round trip.** What `Write` has written, `Read` reads. -/
theorem readOp_writeOp {op : Opcode} {arg : ℤ} {bytes : List Byte}
    (h : writeOp op arg = some bytes) (position : ℕ) (rest : List Byte) :
    readOp ⟨position, bytes ++ rest⟩ =
      some (op, BitVec.ofInt 32 arg, ⟨position + bytes.length, rest⟩) := by
  rw [writeOp] at h
  split_ifs at h with harg
  obtain ⟨bytes', hwrite, hread⟩ := (Encoding.signed .w32).read_write (encode op arg)
  obtain rfl : bytes' = bytes := Option.some.inj (hwrite.symm.trans h)
  have hread' : DataStream.read ⟨position, bytes' ++ rest⟩ =
      some (encode op arg, ⟨position + bytes'.length, rest⟩) := hread position rest
  rw [readOp, hread']
  simp [and_opMask_encode, decodeArg_encode op arg harg]

/-- An argument in range fits a word. -/
theorem toInt_ofInt_of_argInRange {arg : ℤ} (harg : ArgInRange arg) :
    (BitVec.ofInt 32 arg).toInt = arg := by
  have hrange := argInRange_iff.mp harg
  rw [toInt_ofInt]
  exact Int.bmod_eq_of_le (by omega) (by omega)

end DartVm.CodeSourceMap
