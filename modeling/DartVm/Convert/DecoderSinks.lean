import Mathlib.Data.List.Basic

/-! # Ending a chunked conversion

`_Utf8ConversionSink` (`string_conversion.dart`) with the decoder of `utf.dart`, and
`_JsonStringDecoderSink` (`convert_patch.dart`): the last slice may end the input, or `close` does.
A string is the list of its character codes.

* `Converter`: what the UTF-8 sink uses of a decoder, whatever else its state holds.
* `Sink.EndsAlike`: both ways of ending have the same effect downstream.
* `endsAlike_iff`: when they do, after any slices, also after such that have thrown.
* `endsAlike_unfinished`: a sequence that the last slice leaves unfinished is lost. -/

namespace DartVm.DecoderSinks

/-- A call of the sink downstream. -/
inductive Call (α : Type) where
  | addSlice (chunk : List α) (isLast : Bool)
  | close

/-- A slice that is passed on as the last one closes the sink as well. -/
@[simp]
def Call.closes {α : Type} : Call α → Bool
  | addSlice _ isLast => isLast
  | close => true

/-- What the sink downstream receives. -/
@[simp]
def Call.output {α : Type} : Call α → List α
  | addSlice chunk _ => chunk
  | close => []

/-- A conversion: its converter and the calls it has made.  A method that throws leaves a sink too,
which takes further slices. -/
structure Sink (σ α : Type) where
  state : σ
  calls : List (Call α) := []

namespace Sink

variable {σ α ε : Type}

/-- The sink after one more call. -/
@[simp]
def call (s : Sink σ α) (c : Call α) : Sink σ α := { s with calls := s.calls ++ [c] }

/-- The next method, unless the one before has thrown. -/
@[simp]
def andThen (f : Sink σ α → Sink σ α × Option ε) : Sink σ α × Option ε → Sink σ α × Option ε
  | (s, none) => f s
  | (s, some e) => (s, some e)

/-- The same output and error, and one close if there is no error. -/
def SameEffect (r r' : Sink σ α × Option ε) : Prop :=
  r.1.calls.flatMap Call.output = r'.1.calls.flatMap Call.output ∧ r.2 = r'.2 ∧
    (r.2 = none → r.1.calls.countP Call.closes = 1 ∧ r'.1.calls.countP Call.closes = 1)

section Ending

variable (addSlice : Sink σ α → List ℕ → Bool → Sink σ α × Option ε)

/-- Slices that are not the last; the errors of some may have been caught. -/
def addAll : Sink σ α → List (List ℕ) → Sink σ α :=
  List.foldl fun s chunk => (addSlice s chunk false).1

/-- The last slice ends the conversion as `close` does after it. -/
def EndsAlike (close : Sink σ α → Sink σ α × Option ε) (s : Sink σ α) (last : List ℕ) : Prop :=
  SameEffect (addSlice s last true) (andThen close (addSlice s last false))

end Ending

variable {addSlice : Sink σ α → List ℕ → Bool → Sink σ α × Option ε} {s : Sink σ α}

/-- What no slice changes holds after all of them. -/
theorem addAll_induction {p : Sink σ α → Prop}
    (hstep : ∀ s chunk, p s → p (addSlice s chunk false).1) (h : p s) (chunks : List (List ℕ)) :
    p (addAll addSlice s chunks) := by
  induction chunks generalizing s with
  | nil => exact h
  | cons chunk chunks ih => exact ih (hstep s chunk h)

end Sink

open Sink

/-! ## JSON -/

section Json

variable {P V ε : Type} (parse : P → List ℕ → P × Option ε) (closeParser : P → P × Option ε)
  (result : P → V)

/-- `_JsonStringDecoderSink.addSlice`. -/
def addSliceJson (s : Sink P V) (chunk : List ℕ) (isLast : Bool) : Sink P V × Option ε :=
  match parse s.state chunk with
  | (p, some e) => ({ s with state := p }, some e)
  | (p, none) =>
    if isLast then ({ s with state := (closeParser p).1 }, (closeParser p).2)
    else ({ s with state := p }, none)

/-- `_JsonStringDecoderSink.close`. -/
def closeJson (s : Sink P V) : Sink P V × Option ε :=
  match closeParser s.state with
  | (p, some e) => ({ s with state := p }, some e)
  | (p, none) => (({ s with state := p }.call (.addSlice [result p] false)).call .close, none)

/-- The parser fails, at the latest when it is closed. -/
def Refuses (parser : P) (last : List ℕ) : Prop :=
  (parse parser last).2 = none → (closeParser (parse parser last).1).2 ≠ none

/-- The value of an accepted text is lost. -/
theorem endsAlike_json_iff (s : Sink P V) (last : List ℕ) :
    EndsAlike (addSliceJson parse closeParser) (closeJson closeParser result) s last ↔
      Refuses parse closeParser s.state last := by
  simp only [Refuses, EndsAlike, SameEffect, addSliceJson]
  rcases parse s.state last with ⟨p, _ | e⟩
  · rcases hclose : closeParser p with ⟨p', _ | e⟩ <;> simp [closeJson, hclose]
  · simp

end Json

/-! ## Bytes -/

/-- The last state of a finished sequence. -/
def afterBom : ℕ := 0x20

/-- A decoder with states `σ`, which may hold more than `_state`: the VM's has a `_bomIndex`.  After
an error `convertChunked` is ready for more input. -/
structure Converter (σ ε : Type) where
  convertChunked : σ → List ℕ → σ × Except ε (List ℕ)
  /-- `_state`. -/
  state : σ → ℕ
  /-- `_state = initial`. -/
  reset : σ → σ
  allowMalformed : Bool
  /-- The exception for `errorUnfinished`. -/
  unfinished : ε

variable {σ ε : Type}

/-- What `flush` writes or throws. -/
def Converter.flush (C : Converter σ ε) (d : σ) : Except ε (List ℕ) :=
  if C.state d ≤ afterBom then .ok []
  else if C.allowMalformed then .ok [0xFFFD] else .error C.unfinished

/-- The state of `_Utf8ConversionSink`. -/
structure Conversion (σ : Type) where
  decoder : σ
  buffer : List ℕ := []

/-- `_Utf8ConversionSink.close`. -/
def close (C : Converter σ ε) (s : Sink (Conversion σ) ℕ) : Sink (Conversion σ) ℕ × Option ε :=
  let decoder := C.reset s.state.decoder
  match C.flush s.state.decoder with
  | .error e => ({ s with state.decoder := decoder }, some e)
  | .ok flushed =>
    let accumulated := s.state.buffer ++ flushed
    ({ s with state.decoder := decoder, state.buffer := [] }.call
      (if accumulated = [] then .close else .addSlice accumulated true), none)

/-- `_Utf8ConversionSink.addSlice`. -/
def addSlice (C : Converter σ ε) (s : Sink (Conversion σ) ℕ) (chunk : List ℕ) (isLast : Bool) :
    Sink (Conversion σ) ℕ × Option ε :=
  match C.convertChunked s.state.decoder chunk with
  | (decoder, .error e) => ({ s with state.decoder := decoder }, some e)
  | (decoder, .ok converted) =>
    let accumulated := s.state.buffer ++ converted
    let s := { s with state.decoder := decoder, state.buffer := [] }
    if accumulated = [] then if isLast then close C s else (s, none)
    else (s.call (.addSlice accumulated isLast), none)

/-- The slice fails, gives no output, or ends with a whole character. -/
def EndsWhole (C : Converter σ ε) (decoder : σ) (last : List ℕ) : Prop :=
  ∀ converted, (C.convertChunked decoder last).2 = .ok converted →
    converted = [] ∨ C.state (C.convertChunked decoder last).1 ≤ afterBom

variable {C : Converter σ ε} {s : Sink (Conversion σ) ℕ}

/-- Between slices the buffer is empty, and the sink downstream is open. -/
def Open (s : Sink (Conversion σ) ℕ) : Prop :=
  s.state.buffer = [] ∧ s.calls.countP Call.closes = 0

/-- A slice that is not the last leaves the sink open, also when it throws. -/
theorem Open.addSlice (h : Open s) (chunk : List ℕ) : Open (addSlice C s chunk false).1 := by
  obtain ⟨hbuffer, hcalls⟩ := h
  simp only [Open, DecoderSinks.addSlice]
  rcases C.convertChunked s.state.decoder chunk with ⟨decoder, e | converted⟩
  · exact ⟨hbuffer, hcalls⟩
  · by_cases hnil : converted = [] <;> simp [hbuffer, hcalls, hnil]

/-- A sequence that output leaves unfinished is lost. -/
theorem endsAlike_utf8_iff (h : Open s) (last : List ℕ) :
    EndsAlike (addSlice C) (close C) s last ↔ EndsWhole C s.state.decoder last := by
  obtain ⟨hbuffer, hcalls⟩ := h
  simp only [EndsWhole, EndsAlike, SameEffect, DecoderSinks.addSlice, hbuffer]
  rcases C.convertChunked s.state.decoder last with ⟨decoder, e | converted⟩
  · simp
  by_cases hnil : converted = []
  · rcases hflush : C.flush decoder with e | flushed
    · simp [close, hnil, hflush]
    · by_cases hflushed : flushed = [] <;> simp [close, hcalls, hnil, hflush, hflushed]
  · by_cases hstate : C.state decoder ≤ afterBom
    · simp [close, hcalls, hnil, Converter.flush, hstate]
    · cases hallow : C.allowMalformed <;> simp [close, hnil, Converter.flush, hstate, hallow]

/-- `typeTable`, masked by `typeMask`. -/
def typeTable : List ℕ :=
  .replicate 128 1 ++ .replicate 16 6 ++ .replicate 16 7 ++ .replicate 27 8 ++
    [9, 8, 8, 8, 10, 5, 5] ++
    .replicate 30 2 ++ [11] ++ .replicate 12 3 ++ [4, 3, 12, 15, 14, 14, 14, 13] ++ .replicate 11 5

/-- `_Utf8Decoder.transitionTable`: the next state for each class of bytes. -/
def transitionTable : List ℕ :=
  let (X1, X2, X3, TO, TS, QO, QR, B1, B2) := (0x30, 0x3A, 0x44, 0x4E, 0x58, 0x62, 0x6C, 0x76, 0x80)
  let (E1, E2, E3, E4, E5, E6) := (0x41, 0x43, 0x45, 0x47, 0x49, 0x4B)
  [0x20,
    0, X1, X2, TS, E3, E2, E2, E2, E2, E2, TO, X2, QR, X3, QO, 0x20,
    0, X1, X2, TS, E3, E2, E2, E2, E2, E2, TO, B1, QR, X3, QO, 0x20,
    0, X1, X2, TS, E3, E2, E2, E2, E2, E2, TO, X2, QR, X3, QO, 0x20,
    E1, E1, E1, E1, E1, 0, 0, 0, 0, 0,
    E1, E1, E1, E1, E1, X1, X1, X1, X1, X1,
    E1, E1, E1, E1, E1, X2, X2, X2, X2, X2,
    E1, E1, E1, E1, E1, E4, E4, X1, X1, X1,
    E1, E1, E1, E1, E1, X1, X1, E6, E6, E6,
    E1, E1, E1, E1, E1, E4, X2, X2, X2, X2,
    E1, E1, E1, E1, E1, X2, E5, E5, E5, E5,
    E1, E1, E1, E1, E1, X1, X1, X1, B2, X1,
    E1, E1, E1, E1, E1, 0, 0, 0, 0, 0x20, E1, E1, E1, E1, E1]

/-- The state of `_Utf8Decoder` in `utf.dart`. -/
structure Decoder where
  state : ℕ := 0
  charOrIndex : ℕ := 0

namespace Decoder

/-- One transition, with the characters that it writes if malformed input is allowed. -/
def transition (d : Decoder) (byte : ℕ) : Decoder × List ℕ :=
  let type := typeTable.getD byte 0
  let char := if d.state ≤ afterBom then byte &&& (0xF0FE >>> type)
    else (byte &&& 0x3F) ||| (d.charOrIndex <<< 6)
  let state := transitionTable.getD (d.state + type) 0
  ({ d with state, charOrIndex := char }, match state with
    | 0 => [char]
    | 0x41 | 0x43 | 0x45 => [0xFFFD]
    | state => if state % 2 = 1 then [0xFFFD, 0xFFFD] else [])

variable (allowMalformed : Bool)

/-- `decodeGeneral` in chunks, and the error state that `convertGeneral` throws for. -/
def decodeGeneral (d : Decoder) (buffer : List ℕ) : List ℕ → Decoder × Except ℕ (List ℕ)
  | [] => (d, .ok buffer)
  | byte :: bytes =>
    let (next, written) := d.transition byte
    let start := { next with state := 0 }
    if next.state % 2 = 0 then decodeGeneral next (buffer ++ written) bytes
    else if !allowMalformed then (start, .error next.state)
    else if next.state = 0x41 then
      -- The byte is parsed again.
      let (next, again) := start.transition byte
      decodeGeneral (if next.state % 2 = 0 then next else start) (buffer ++ written ++ again) bytes
    else decodeGeneral start (buffer ++ written) bytes

end Decoder

/-- The decoder of `utf.dart`. -/
def converter (allowMalformed : Bool) : Converter Decoder ℕ where
  convertChunked d := d.decodeGeneral allowMalformed []
  state := Decoder.state
  reset d := { d with state := 0 }
  allowMalformed := allowMalformed
  unfinished := 0x4D

end DartVm.DecoderSinks
