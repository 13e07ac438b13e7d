import DartVm.CodeSourceMap.Flush
import DartVm.Library.PendingInterval

/-! # The builder refines a recorder of intervals

What a reader finds at a pc offset is the value that a recorder with a pending interval has recorded
there: `FlushBuffer` is its `flush`, `BufferAdvancePC` is its `advance`, and the other `Buffer`
operations change the pending value.

* `Decodes`: what a reader finds below the written pc offset.
* `Refines`: the builder and the recorder agree.
* `Refines.returns_flushBuffer`, `Refines.bufferAdvancePC`: the two operations of the recorder. -/

namespace DartVm.CodeSourceMap

open DataStream Postcondition PendingInterval

variable {F : Type} {setup : Setup F} {s s' : Builder F} {lim : Limits} {root : F}

/-- What `GetInlinedFunctionsAt` returns. -/
abbrev View (F : Type) := Option (List (F × TokenPosition))

variable {decoded : ℤ → View F} {t : State (View F)} {pc : ℤ}

/-! ## Decoding -/

/-- The state in which `GetInlinedFunctionsAt` starts. -/
def startReader (root : F) : Reader F := ⟨[(root, kInitialPosition)], 0⟩

/-- **Decoding.** A reader finds the values `decoded` below the written pc offset, whatever follows;
at others it arrives at what is written. -/
structure Decodes (setup : Setup F) (root : F) (s : Builder F) (decoded : ℤ → View F) : Prop where
  exists_ops : ∃ ops, bytesOf ops = some s.stream ∧
    ∀ functions, s.inlinedFunctions <+: functions → ∃ r, Shows setup s r ∧ ∀ pc more,
      (s.writtenPcOffset ≤ pc →
        readOps functions pc (startReader root) (ops ++ more) = readOps functions pc r more) ∧
      (0 ≤ pc → pc < s.writtenPcOffset →
        ∃ r', readOps functions pc (startReader root) (ops ++ more) = some r' ∧
          decoded pc = some r'.stack)

section

variable (h : Decodes setup root s decoded)
include h

/-- What has been decoded stays, and the written state is at its end. -/
theorem Decodes.writes (hwrites : Writes setup s s') : Decodes setup root s' decoded := by
  obtain ⟨ops, hops, hread⟩ := h.exists_ops
  obtain ⟨script, bytes, hbytes, hstream, hscript, hexec⟩ := hwrites.exists_script
  refine ⟨ops ++ script, hstream ▸ bytesOf_append hops hbytes, fun functions hfunctions => ?_⟩
  obtain ⟨r, hshows, hr⟩ := hread functions (hwrites.functions.trans hfunctions)
  obtain ⟨r', hr', hshows'⟩ := hexec functions hfunctions r hshows
  refine ⟨r', hshows', fun pc more => ⟨fun hle => ?_, fun hpos hlt => ?_⟩⟩
  · rw [hwrites.writtenPcOffset] at hle
    rw [List.append_assoc, (hr pc _).1 hle, readOps_append hscript hr']
  · rw [hwrites.writtenPcOffset] at hlt
    rw [List.append_assoc]
    exact (hr pc _).2 hpos hlt

/-- Decoding depends on what is written only, and is asked below the written offset only. -/
theorem Decodes.congr {decoded' : ℤ → View F} (hstream : s'.stream = s.stream)
    (hinlined : s'.inlinedFunctions = s.inlinedFunctions) (hwritten : s'.written = s.written)
    (hpc : s'.writtenPcOffset = s.writtenPcOffset)
    (heq : ∀ pc < s.writtenPcOffset, decoded' pc = decoded pc) :
    Decodes setup root s' decoded' := by
  obtain ⟨ops, hops, hread⟩ := h.exists_ops
  refine ⟨ops, hstream ▸ hops, fun functions hfunctions => ?_⟩
  obtain ⟨r, hshows, hr⟩ := hread functions (hinlined ▸ hfunctions)
  refine ⟨r, ⟨hwritten ▸ hshows.stack, hpc ▸ hshows.pcOffset⟩, fun pc more => ?_⟩
  rw [hpc]
  refine ⟨(hr pc more).1, fun hpos hlt => ?_⟩
  rw [heq pc hlt]
  exact (hr pc more).2 hpos hlt

omit h in
/-- **Advancing**: the reader stops at the interval that the offset lies in. -/
theorem readOps_advancePC {functions : List F} {pc distance : ℤ} (harg : ArgInRange distance)
    (r : Reader F) (more : List Instr) :
    readOps functions pc r ((.advancePC, distance) :: more) =
      if r.currentPcOffset + distance > pc then some ⟨r.stack, r.currentPcOffset + distance⟩
      else readOps functions pc ⟨r.stack, r.currentPcOffset + distance⟩ more := by
  have hexec : execInstr functions r (.advancePC, distance) =
      some ⟨r.stack, r.currentPcOffset + distance⟩ := by
    rw [execInstr, Reader.exec, toInt_ofInt_of_argInRange harg]
  rw [readOps, hexec]
  simp

/-- **`WriteAdvancePC`.** A reader stops there and finds the written stack. -/
theorem Decodes.advance {distance : ℤ} {bytes : List Byte} (hpos : 0 ≤ distance)
    (harg : ArgInRange distance) (hbytes : bytesOf [(.advancePC, distance)] = some bytes) :
    Decodes setup root
      { s with stream := s.stream ++ bytes, writtenPcOffset := s.writtenPcOffset + distance }
      fun pc => if pc < s.writtenPcOffset then decoded pc else functionsOf setup s.written := by
  obtain ⟨ops, hops, hread⟩ := h.exists_ops
  have hops' : bytesOf (ops ++ [(.advancePC, distance)]) = some (s.stream ++ bytes) :=
    bytesOf_append hops hbytes
  refine ⟨_, hops', fun functions hfunctions => ?_⟩
  obtain ⟨r, hshows, hr⟩ := hread functions hfunctions
  have hpc : r.currentPcOffset + distance = s.writtenPcOffset + distance := by
    rw [hshows.pcOffset]
  refine ⟨⟨r.stack, r.currentPcOffset + distance⟩, ⟨hshows.stack, hpc⟩, fun pc more => ?_⟩
  rw [List.append_assoc, List.singleton_append]
  constructor
  · intro hle
    have hle' : s.writtenPcOffset + distance ≤ pc := hle
    rw [(hr pc _).1 (by omega), readOps_advancePC harg, if_neg (by omega)]
  intro hpc0 hlt
  have hlt' : pc < s.writtenPcOffset + distance := hlt
  by_cases hold : pc < s.writtenPcOffset
  · rw [if_pos hold]
    exact (hr pc _).2 hpc0 hold
  · rw [if_neg hold, (hr pc _).1 (not_lt.mp hold), readOps_advancePC harg, if_pos (by omega)]
    exact ⟨_, rfl, hshows.stack⟩

/-- **`GetInlinedFunctionsAt`** finds the decoded value. -/
theorem Decodes.getInlinedFunctionsAt_eq (hpos : 0 ≤ pc) (hlt : pc < s.writtenPcOffset) :
    getInlinedFunctionsAt s.stream s.inlinedFunctions root pc = decoded pc := by
  obtain ⟨ops, hops, hread⟩ := h.exists_ops
  obtain ⟨r, -, hr⟩ := hread s.inlinedFunctions List.prefix_rfl
  obtain ⟨r', hr', hdecoded⟩ := (hr pc []).2 hpos hlt
  rw [List.append_nil] at hr'
  rw [getInlinedFunctionsAt, readLoop_eq hops (le_refl _), show (⟨[(root, kInitialPosition)], 0⟩ :
    Reader F) = startReader root from rfl, hr', hdecoded]
  rfl

end

/-! ## Refinement -/

/-- Facts about the state of the builder between calls. -/
structure Valid (lim : Limits) (setup : Setup F) (s : Builder F) : Prop where
  buffered : StackIn lim setup s.buffered
  written : StackIn lim setup s.written
  known : Known setup s
  bufferedPc_mem : s.bufferedPcOffset ∈ lim.offsets
  writtenPc_mem : s.writtenPcOffset ∈ lim.offsets

/-- **Refinement.** -/
structure Refines (lim : Limits) (setup : Setup F) (root : F) (s : Builder F)
    (t : State (View F)) : Prop where
  valid : Valid lim setup s
  bufferedPc : s.bufferedPcOffset = t.buffered
  writtenPc : s.writtenPcOffset = t.written
  value : functionsOf setup s.buffered = t.value
  decodes : Decodes setup root s t.recorded

section Flush

variable [DecidableEq F]

/-- **`FlushBuffer`** flushes. -/
theorem Refines.returns_flushBuffer (h : Refines lim setup root s t) (htree : IsTree setup)
    (hinitial : kInitialPosition ∈ lim.positions) (hle : t.written ≤ t.buffered) :
    Returns (¬lim.InRange setup) (s.flushBuffer setup) fun s' =>
      Refines lim setup root s' t.flush := by
  apply returns_flushStack htree h.valid.buffered h.valid.written hinitial h.valid.known
  intro s₁ hwrites hwritten
  have hknown := hwrites.known h.valid.known
  have hdecodes := h.decodes.writes hwrites
  have hview : functionsOf setup s₁.written = t.value := by rw [hwritten, h.value]
  have hvalue : functionsOf setup s₁.buffered = t.value := by rw [hwrites.buffered, h.value]
  have hbufferedPc : s₁.bufferedPcOffset = t.buffered := by
    rw [hwrites.bufferedPcOffset, h.bufferedPc]
  have hwrittenPc : s₁.writtenPcOffset = t.written := by rw [hwrites.writtenPcOffset, h.writtenPc]
  have hstack : StackIn lim setup s₁.buffered := by rw [hwrites.buffered]; exact h.valid.buffered
  have hstack' : StackIn lim setup s₁.written := by rw [hwritten]; exact h.valid.buffered
  have hmem : s₁.bufferedPcOffset ∈ lim.offsets := by
    rw [hwrites.bufferedPcOffset]
    exact h.valid.bufferedPc_mem
  have hmem' : s₁.writtenPcOffset ∈ lim.offsets := by
    rw [hwrites.writtenPcOffset]
    exact h.valid.writtenPc_mem
  apply returns_ite
  · intro _
    apply (returns_writeOp fun harg hrange =>
      harg (hrange.offsets _ hmem' _ hmem (by omega))).bind
    rintro s' ⟨harg, bytes, hbytes, rfl⟩
    have hdecodes' := hdecodes.advance (by omega) harg hbytes
    have hsum : s₁.writtenPcOffset + (s₁.bufferedPcOffset - s₁.writtenPcOffset) =
        s₁.bufferedPcOffset := by omega
    refine ⟨⟨hstack, hstack', ⟨hknown.nodup, hknown.subset⟩, hmem, by rwa [hsum]⟩, hbufferedPc,
      hsum.trans hbufferedPc, hvalue, hdecodes'.congr rfl rfl rfl rfl fun pc _ => ?_⟩
    rw [State.flush_recorded, hwrittenPc, hview]
  · intro heq
    have heq' : s₁.writtenPcOffset = s₁.bufferedPcOffset := (not_not.mp heq).symm
    refine ⟨⟨hstack, hstack', hknown, hmem, hmem'⟩, hbufferedPc, heq'.trans hbufferedPc, hvalue,
      hdecodes.congr rfl rfl rfl rfl fun pc hlt => ?_⟩
    rw [State.flush_recorded, if_pos (hwrittenPc ▸ hlt)]

end Flush

/-- **`BufferAdvancePC`** advances. -/
theorem Refines.bufferAdvancePC (h : Refines lim setup root s t) (hpc : pc ∈ lim.offsets) :
    Refines lim setup root (s.bufferAdvancePC (pc - s.bufferedPcOffset)) (t.advance pc) := by
  have hsum : s.bufferedPcOffset + (pc - s.bufferedPcOffset) = pc := by omega
  refine ⟨⟨h.valid.buffered, h.valid.written, ⟨h.valid.known.nodup, h.valid.known.subset⟩, ?_,
    h.valid.writtenPc_mem⟩, hsum, h.writtenPc, h.value,
    h.decodes.congr rfl rfl rfl rfl fun _ _ => rfl⟩
  rwa [Builder.bufferAdvancePC, hsum]

/-- Replacing the buffered stack is a change of the recorded value. -/
theorem Refines.setBuffered (h : Refines lim setup root s t) {stack : List Frame}
    (hstack : StackIn lim setup stack) :
    Refines lim setup root { s with buffered := stack } (t.change (functionsOf setup stack)) := by
  refine ⟨⟨hstack, h.valid.written, ⟨h.valid.known.nodup, h.valid.known.subset⟩,
    h.valid.bufferedPc_mem, h.valid.writtenPc_mem⟩, h.bufferedPc, h.writtenPc, rfl,
    h.decodes.congr rfl rfl rfl rfl fun _ _ => rfl⟩

end DartVm.CodeSourceMap
