import DartVm.CodeSourceMap.Ops

/-! # Builder and reader of code source maps

A code source map maps pc offsets to the stack of inlined functions with their token positions.
`CodeSourceMapBuilder` keeps a buffered stack and the one that the operations written so far
produce, and writes what leads from one to the other when it flushes.  `CodeSourceMapReader` runs
the operations up to a pc offset.

The model is that of the JIT, without the checks of `FLAG_check_token_positions`.  `none` stands for
a failed assertion, an access outside an array and a loop without end.

* `Builder`, `Call`: the state of the builder and the calls of the compiler.
* `Reader`, `getInlinedFunctionsAt`: what a reader finds at a pc offset. -/

namespace DartVm.CodeSourceMap

open DataStream

/-! ## Token positions and the inlining tree -/

/-- `TokenPosition`, by its `value_`. -/
abbrev TokenPosition := BitVec 32

/-- `TokenPosition::kLastPos`: classifying positions lie between it and zero. -/
def kLastPos : ℤ := -14

/-- `TokenPosition::IsReal`. -/
def isReal (pos : TokenPosition) : Bool := pos.toInt ≥ 0

/-- `TokenPosition::IsSynthetic`. -/
def isSynthetic (pos : TokenPosition) : Bool := pos.toInt < kLastPos

/-- `kInitialPosition`, which is `kDartCodePrologue`. -/
def kInitialPosition : TokenPosition := -12

/-- `InstructionSource`: a position and the inlining interval it belongs to. -/
structure InstructionSource where
  tokenPos : TokenPosition
  /-- Negative if it is not set. -/
  inliningId : ℤ
deriving DecidableEq

/-- **What a builder is constructed with.** -/
structure Setup (F : Type) where
  stackTracesOnly : Bool
  callerInlineId : List ℤ
  /-- `inline_id_to_token_pos_`: the position of the call that was inlined, in its caller. -/
  inlineIdToTokenPos : List TokenPosition
  inlineIdToFunction : List F

/-- An array access. -/
def get? {α : Type} (l : List α) (i : ℤ) : Option α := if i < 0 then none else l[i.toNat]?

/-! ## Builder -/

/-- An element of `inline_id_stack_` with that of `token_pos_stack_`; the two stacks are pushed and
popped together. -/
@[ext]
structure Frame where
  inlineId : ℤ
  tokenPos : TokenPosition
deriving DecidableEq

/-- **State of the builder.** The top of a stack is its last element. -/
structure Builder (F : Type) where
  bufferedPcOffset : ℤ
  /-- `buffered_inline_id_stack_` and `buffered_token_pos_stack_`. -/
  buffered : List Frame
  writtenPcOffset : ℤ
  /-- `written_inline_id_stack_` and `written_token_pos_stack_`. -/
  written : List Frame
  inlinedFunctions : List F
  stream : List Byte
deriving DecidableEq

variable {F : Type} [DecidableEq F]

omit [DecidableEq F] in
/-- `CodeSourceMapBuilder::CodeSourceMapBuilder`. -/
def newBuilder : Builder F :=
  ⟨0, [⟨0, kInitialPosition⟩], 0, [⟨0, kInitialPosition⟩], [], []⟩

/-- Sets the position of the top frame. -/
def setTop (stack : List Frame) (pos : TokenPosition) : Option (List Frame) := do
  let top ← stack.getLast?
  some (stack.dropLast ++ [{ top with tokenPos := pos }])

namespace Builder

omit [DecidableEq F]

/-- `BufferChangePosition`. -/
def bufferChangePosition (s : Builder F) (pos : TokenPosition) : Option (Builder F) := do
  let buffered ← setTop s.buffered pos
  some { s with buffered }

/-- `BufferAdvancePC`. -/
def bufferAdvancePC (s : Builder F) (distance : ℤ) : Builder F :=
  { s with bufferedPcOffset := s.bufferedPcOffset + distance }

/-- `BufferPush`. -/
def bufferPush (s : Builder F) (inlineId : ℤ) : Builder F :=
  { s with buffered := s.buffered ++ [⟨inlineId, kInitialPosition⟩] }

/-- `BufferPop`. -/
def bufferPop (s : Builder F) : Builder F := { s with buffered := s.buffered.dropLast }

/-- `IsOnBufferedStack`. -/
def isOnBufferedStack (s : Builder F) (inlineId : ℤ) : Bool :=
  s.buffered.any (·.inlineId == inlineId)

/-- Writes an operation. -/
def writeOp (s : Builder F) (op : Opcode) (arg : ℤ) : Option (Builder F) := do
  let bytes ← CodeSourceMap.writeOp op arg
  some { s with stream := s.stream ++ bytes }

/-- `WriteChangePosition`: positions are written as differences. -/
def writeChangePosition (s : Builder F) (pos : TokenPosition) : Option (Builder F) := do
  let lastWritten ← s.written.getLast?
  let s ← s.writeOp .changePosition (pos - lastWritten.tokenPos).toInt
  let written ← setTop s.written pos
  some { s with written }

/-- `WriteAdvancePC`. -/
def writeAdvancePC (s : Builder F) (distance : ℤ) : Option (Builder F) := do
  let s ← s.writeOp .advancePC distance
  some { s with writtenPcOffset := s.writtenPcOffset + distance }

/-- `WritePop`. -/
def writePop (s : Builder F) : Option (Builder F) := do
  let s ← s.writeOp .popFunction 0
  some { s with written := s.written.dropLast }

/-- `WriteNullCheck`. -/
def writeNullCheck (s : Builder F) (nameIndex : ℤ) : Option (Builder F) :=
  s.writeOp .nullCheck nameIndex

end Builder

variable (setup : Setup F)

namespace Builder

/-- `GetFunctionId`: the index of the function of an interval in `inlined_functions_`, which is
extended if the function is new. -/
def getFunctionId (s : Builder F) (inlineId : ℤ) : Option (ℕ × Builder F) := do
  let function ← get? setup.inlineIdToFunction inlineId
  match s.inlinedFunctions.findIdx? (· == function) with
  | some i => some (i, s)
  | none =>
    some (s.inlinedFunctions.length,
      { s with inlinedFunctions := s.inlinedFunctions ++ [function] })

/-- `WritePush`. -/
def writePush (s : Builder F) (inlineId : ℤ) : Option (Builder F) := do
  let (id, s) ← s.getFunctionId setup inlineId
  let s ← s.writeOp .pushFunction id
  some { s with written := s.written ++ [⟨inlineId, kInitialPosition⟩] }

end Builder

/-- The first loop of `FlushBuffer`, below `k`: the top-most position where the two stacks match. -/
def commonIndex (buffered written : List Frame) : ℕ → Option ℕ
  | 0 => none
  | k + 1 =>
    if k < written.length ∧
        buffered[k]?.map Frame.inlineId = written[k]?.map Frame.inlineId then some k
    else commonIndex buffered written k

namespace Builder

omit [DecidableEq F] in
/-- The second loop of `FlushBuffer`: pops down to the common index. -/
def popWritten (common : ℕ) : ℕ → Builder F → Option (Builder F)
  | 0, s => if s.written.length > common + 1 then none else some s
  | fuel + 1, s =>
    if s.written.length > common + 1 then do
      let s ← s.writePop
      popWritten common fuel s
    else some s

omit [DecidableEq F] in
/-- The position of the frames at index `j`, if it has changed. -/
def flushPosition (s : Builder F) (j : ℕ) : Option (Builder F) := do
  let bufferedFrame ← s.buffered[j]?
  let writtenFrame ← s.written[j]?
  if bufferedFrame.tokenPos ≠ writtenFrame.tokenPos then
    s.writeChangePosition bufferedFrame.tokenPos
  else some s

omit [DecidableEq F] in
/-- The pc offset, if it has changed. -/
def flushPcOffset (s : Builder F) : Option (Builder F) :=
  if s.bufferedPcOffset ≠ s.writtenPcOffset then
    s.writeAdvancePC (s.bufferedPcOffset - s.writtenPcOffset)
  else some s

/-- One iteration of the third loop of `FlushBuffer`: pushes the frame at index `j`. -/
def pushBuffered (s : Builder F) (j : ℕ) : Option (Builder F) := do
  let s ← s.flushPosition (j - 1)
  let frame ← s.buffered[j]?
  s.writePush setup frame.inlineId

/-- `FlushBuffer`: writes what turns the written stack, position and offset into the buffered
ones. -/
def flushBuffer (s : Builder F) : Option (Builder F) := do
  -- 1. Flush the inlining stack.
  let common ← commonIndex s.buffered s.written s.buffered.length
  let s ← s.popWritten common s.written.length
  let s ← (List.range' (common + 1) (s.buffered.length - (common + 1))).foldlM
    (pushBuffered setup) s
  -- 2. Flush the current token position.
  let s ← s.flushPosition (s.buffered.length - 1)
  -- 3. Flush the current PC offset.
  s.flushPcOffset

/-- `FlushBuffer`, unless only stack traces matter. -/
def flushUnlessStackTracesOnly (s : Builder F) : Option (Builder F) :=
  if setup.stackTracesOnly then some s else s.flushBuffer setup

omit [DecidableEq F] in
/-- The first loop of `StartInliningInterval`: the first of the callers that is on the stack. -/
def commonParent (s : Builder F) : ℕ → ℤ → Option ℤ
  | 0, id => if s.isOnBufferedStack id then some id else none
  | fuel + 1, id =>
    if s.isOnBufferedStack id then some id
    else do
      let caller ← get? setup.callerInlineId id
      commonParent s fuel caller

omit [DecidableEq F] in
/-- The second loop: pops down to the common parent. -/
def popBuffered (parent : ℤ) : ℕ → Builder F → Option (Builder F)
  | 0, _ => none
  | fuel + 1, s => do
    let last ← s.buffered.getLast?
    if last.inlineId ≠ parent then popBuffered parent fuel s.bufferPop else some s

end Builder

omit [DecidableEq F] in
/-- The third loop: the ids from `id` up to the common parent. -/
def toPush (parent : ℤ) : ℕ → ℤ → Option (List ℤ)
  | 0, id => if id ≠ parent then none else some []
  | fuel + 1, id =>
    if id ≠ parent then do
      let caller ← get? setup.callerInlineId id
      let ids ← toPush parent fuel caller
      some (id :: ids)
    else some []

namespace Builder

omit [DecidableEq F] in
/-- One iteration of the fourth loop: the call of the callee is the position in the caller. -/
def pushCallee (s : Builder F) (calleeId : ℤ) : Option (Builder F) := do
  let pos ← get? setup.inlineIdToTokenPos (calleeId - 1)
  let s ← s.bufferChangePosition pos
  some (s.bufferPush calleeId)

omit [DecidableEq F] in
/-- Pops and pushes to the stack of `id`. -/
def switchTo (s : Builder F) (id : ℤ) : Option (Builder F) := do
  let parent ← s.commonParent setup setup.callerInlineId.length id
  let s ← popBuffered parent s.buffered.length s
  let ids ← toPush setup parent setup.callerInlineId.length id
  ids.reverse.foldlM (pushCallee setup) s

omit [DecidableEq F] in
/-- Whether `StartInliningInterval` does something. -/
def startsInterval (s : Builder F) (source : InstructionSource) : Bool :=
  (isReal source.tokenPos || isSynthetic source.tokenPos) &&
    s.buffered.getLast?.map Frame.inlineId != some source.inliningId && 0 ≤ source.inliningId

/-- `StartInliningInterval`. -/
def startInliningInterval (s : Builder F) (source : InstructionSource) : Option (Builder F) :=
  if s.startsInterval source then do
    let s ← s.flushUnlessStackTracesOnly setup
    s.switchTo setup source.inliningId
  else some s

/-- `BeginCodeSourceRange`. -/
def beginCodeSourceRange (s : Builder F) (source : InstructionSource) : Option (Builder F) :=
  s.startInliningInterval setup source

/-- A position of `EndCodeSourceRange`: what was buffered before is flushed if it changes. -/
def flushAndChangePosition (s : Builder F) (pos : TokenPosition) : Option (Builder F) := do
  let top ← s.buffered.getLast?
  if pos ≠ top.tokenPos then do
    let s ← s.flushUnlessStackTracesOnly setup
    s.bufferChangePosition pos
  else some s

/-- `EndCodeSourceRange`: the code up to `pcOffset` belongs to the source. -/
def endCodeSourceRange (s : Builder F) (pcOffset : ℤ) (source : InstructionSource) :
    Option (Builder F) :=
  if pcOffset = s.bufferedPcOffset then some s
  else do
    let s ← s.startInliningInterval setup source
    let s ← s.flushAndChangePosition setup source.tokenPos
    some (s.bufferAdvancePC (pcOffset - s.bufferedPcOffset))

/-- What `NoteDescriptor` and `NoteNullCheck` have in common. -/
def note (s : Builder F) (pcOffset : ℤ) (source : InstructionSource) : Option (Builder F) := do
  let s ← s.startInliningInterval setup source
  let s ← s.bufferChangePosition source.tokenPos
  let s := s.bufferAdvancePC (pcOffset - s.bufferedPcOffset)
  s.flushBuffer setup

end Builder

/-- `UntaggedPcDescriptors::kIcCall`. -/
def kIcCall : BitVec 8 := 1 <<< 1

/-- `UntaggedPcDescriptors::kUnoptStaticCall`. -/
def kUnoptStaticCall : BitVec 8 := 1 <<< 2

/-- `UntaggedPcDescriptors::kRuntimeCall`. -/
def kRuntimeCall : BitVec 8 := 1 <<< 3

/-- `UntaggedPcDescriptors::kOther`. -/
def kOther : BitVec 8 := 1 <<< 7

/-- The kinds of descriptors at which code can throw. -/
def kCanThrow : BitVec 8 := kIcCall ||| kUnoptStaticCall ||| kRuntimeCall ||| kOther

namespace Builder

/-- `NoteDescriptor`: only descriptors at which code can throw matter. -/
def noteDescriptor (s : Builder F) (kind : BitVec 8) (pcOffset : ℤ) (source : InstructionSource) :
    Option (Builder F) :=
  if kind &&& kCanThrow ≠ 0 then s.note setup pcOffset source else some s

/-- `NoteNullCheck`. -/
def noteNullCheck (s : Builder F) (pcOffset : ℤ) (source : InstructionSource) (nameIndex : ℤ) :
    Option (Builder F) := do
  let s ← s.note setup pcOffset source
  s.writeNullCheck nameIndex

/-- `Finalize` and `InliningIdToFunction`: the map and its functions. -/
def finalize (s : Builder F) : Option (List Byte × List F) := do
  let s ← s.flushUnlessStackTracesOnly setup
  some (s.stream, s.inlinedFunctions)

end Builder

/-- **Calls of the builder.** -/
inductive Call where
  | beginCodeSourceRange (pcOffset : ℤ) (source : InstructionSource)
  | endCodeSourceRange (pcOffset : ℤ) (source : InstructionSource)
  | noteDescriptor (kind : BitVec 8) (pcOffset : ℤ) (source : InstructionSource)
  | noteNullCheck (pcOffset : ℤ) (source : InstructionSource) (nameIndex : ℤ)

/-- The pc offset of a call. -/
def Call.pcOffset : Call → ℤ
  | beginCodeSourceRange pc _ | endCodeSourceRange pc _ | noteDescriptor _ pc _
  | noteNullCheck pc _ _ => pc

/-- The source of a call. -/
def Call.source : Call → InstructionSource
  | beginCodeSourceRange _ source | endCodeSourceRange _ source | noteDescriptor _ _ source
  | noteNullCheck _ source _ => source

/-- One call. -/
def Builder.step (s : Builder F) : Call → Option (Builder F)
  | .beginCodeSourceRange _ source => s.beginCodeSourceRange setup source
  | .endCodeSourceRange pc source => s.endCodeSourceRange setup pc source
  | .noteDescriptor kind pc source => s.noteDescriptor setup kind pc source
  | .noteNullCheck pc source nameIndex => s.noteNullCheck setup pc source nameIndex

/-! ## Reader -/

/-- **State of `GetInlinedFunctionsAt`.** The two stacks are pushed and popped together. -/
structure Reader (F : Type) where
  /-- `function_stack` and `token_positions`. -/
  stack : List (F × TokenPosition)
  currentPcOffset : ℤ
deriving DecidableEq

omit [DecidableEq F]

/-- The switch of `GetInlinedFunctionsAt`. -/
def Reader.exec (functions : List F) (r : Reader F) (op : Opcode) (arg : BitVec 32) :
    Option (Reader F) :=
  match op with
  | .changePosition => do
    let top ← r.stack.getLast?
    some { r with stack := r.stack.dropLast ++ [(top.1, arg + top.2)] }
  | .advancePC => some { r with currentPcOffset := r.currentPcOffset + arg.toInt }
  | .pushFunction => do
    let function ← get? functions arg.toInt
    some { r with stack := r.stack ++ [(function, kInitialPosition)] }
  | .popFunction =>
    if r.stack.length > 1 then some { r with stack := r.stack.dropLast } else none
  | .nullCheck => some r

/-- The loop of `GetInlinedFunctionsAt`, which returns when it has advanced past the pc offset. -/
def readLoop (functions : List F) (pcOffset : ℤ) : ℕ → ReadStream → Reader F → Option (Reader F)
  | 0, st, r => if st.pending.length > 0 then none else some r
  | fuel + 1, st, r =>
    if st.pending.length > 0 then do
      let (op, arg, st) ← readOp st
      let r ← r.exec functions op arg
      if op = .advancePC ∧ r.currentPcOffset > pcOffset then some r
      else readLoop functions pcOffset fuel st r
    else some r

/-- **`GetInlinedFunctionsAt`**: the stack of functions and token positions. -/
def getInlinedFunctionsAt (map : List Byte) (functions : List F) (root : F) (pcOffset : ℤ) :
    Option (List (F × TokenPosition)) := do
  let r ← readLoop functions pcOffset map.length ⟨0, map⟩ ⟨[(root, kInitialPosition)], 0⟩
  some r.stack

end DartVm.CodeSourceMap
