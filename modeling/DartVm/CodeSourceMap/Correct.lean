import DartVm.CodeSourceMap.Refinement

/-! # What a code source map says

Every call of the builder buffers a stack for an interval of pc offsets.  The map says the same for
all offsets if and only if no call overwrites a buffered position: `NoteDescriptor` and
`NoteNullCheck` change the position without flushing what is pending.

* `Refines.returns_step`, `Refines.returns_runCalls`: what one call and a sequence of calls keep.
* `getInlinedFunctionsAt_eq_iff`: when the map is exact.
* `noteDescriptor_overwrites_pending`: a map that is not. -/

namespace DartVm.CodeSourceMap

open DataStream Postcondition PendingInterval List Refines

variable {F : Type} {setup : Setup F} {s s' : Builder F} {lim : Limits} {root : F}
  {t : State (View F)} {source : InstructionSource} {pc : ℤ} {pos : TokenPosition}
  {below : List Frame} {calls : List Call} {top : Frame}

/-! ## Runs -/

section Runs

variable [DecidableEq F] (setup)

/-- Makes calls, and collects what each call buffers for the pc offsets from the last one. -/
def runCalls :
    Builder F → List Call → Option (Builder F × List (PendingInterval.Interval (View F)))
  | s, [] => some (s, [])
  | s, call :: calls => do
    let s' ← s.step setup call
    let (s'', intervals) ← runCalls s' calls
    some (s'', ⟨s.bufferedPcOffset, s'.bufferedPcOffset,
      functionsOf setup s'.buffered⟩ :: intervals)

/-- Makes calls on a new builder and finalizes the map. -/
def build (calls : List Call) :
    Option (List Byte × List F × List (PendingInterval.Interval (View F))) := do
  let (s, intervals) ← runCalls setup newBuilder calls
  let (map, functions) ← s.finalize setup
  some (map, functions, intervals)

end Runs

/-- A position may be buffered: nothing is pending after a flush or at all, or the position is the
same. -/
def KeepsPending (s : Builder F) (source : InstructionSource) : Prop :=
  s.startsInterval source ∨ s.writtenPcOffset = s.bufferedPcOffset ∨
    s.buffered.getLast?.map Frame.tokenPos = some source.tokenPos

/-- The call does not overwrite a position that is pending. -/
def Keeps (s : Builder F) : Call → Prop
  | .beginCodeSourceRange .. | .endCodeSourceRange .. => True
  | .noteDescriptor kind _ source => kind &&& kCanThrow ≠ 0 → KeepsPending s source
  | .noteNullCheck _ source _ => KeepsPending s source

/-- No call overwrites a position that is pending. -/
def KeepsAll [DecidableEq F] (setup : Setup F) : Builder F → List Call → Prop
  | _, [] => True
  | s, call :: calls => Keeps s call ∧ ∀ s', s.step setup call = some s' → KeepsAll setup s' calls

/-! ## Stacks and their functions -/

/-- The positions of callers come from the table of inlined calls. -/
theorem IsContext.tokenPos_mem {id : ℤ} (h : IsContext setup below id) :
    ∀ f ∈ below, f.tokenPos ∈ setup.inlineIdToTokenPos := by
  induction h with
  | root => simp
  | call _ _ _ hpos ih =>
    intro f hf
    rcases mem_append.mp hf with hf | hf
    · exact ih f hf
    · rw [mem_singleton.mp hf]
      rw [get?] at hpos
      split_ifs at hpos
      exact mem_of_getElem? hpos

/-- The values that do not depend on the calls. -/
structure Limits.Covers (lim : Limits) (setup : Setup F) : Prop where
  initial : kInitialPosition ∈ lim.positions
  table : setup.inlineIdToTokenPos ⊆ lim.positions

/-- The values of a call. -/
structure Limits.CoversCall (lim : Limits) (setup : Setup F) (call : Call) : Prop where
  position : call.source.tokenPos ∈ lim.positions
  offset : call.pcOffset ∈ lim.offsets
  name : ∀ pc source nameIndex, call = .noteNullCheck pc source nameIndex → nameIndex ∈ lim.names
  id_lt : call.source.inliningId < setup.callerInlineId.length

/-- A context with a known position on top is a stack within the limits. -/
theorem stackIn_concat (hcovers : lim.Covers setup)
    (hbelow : IsContext setup below top.inlineId) (htop : top.tokenPos ∈ lim.positions) :
    StackIn lim setup (below ++ [top]) := by
  refine ⟨⟨below, top, rfl, hbelow⟩, fun f hf => ?_⟩
  rcases mem_append.mp hf with hf | hf
  · exact hcovers.table (hbelow.tokenPos_mem f hf)
  · rwa [mem_singleton.mp hf]

/-- In a tree of inlined calls every stack has its functions. -/
theorem IsStack.exists_functionsOf {stack : List Frame} (h : IsStack setup stack)
    (htree : IsTree setup) : ∃ l, functionsOf setup stack = some l := by
  have hfunctions : ∀ f ∈ stack, ∃ function,
      get? setup.inlineIdToFunction f.inlineId = some function :=
    fun f hf => h.exists_function htree hf
  clear h
  induction stack using List.reverseRecOn with
  | nil => exact ⟨[], rfl⟩
  | append_singleton stack f ih =>
    obtain ⟨l, hl⟩ := ih fun g hg => hfunctions g (mem_append_left _ hg)
    obtain ⟨function, hfunction⟩ := hfunctions f (by simp)
    exact ⟨_, functionsOf_concat.mpr ⟨l, function, hl, hfunction, rfl⟩⟩

/-- The views of two stacks that differ in the last position are different. -/
theorem functionsOf_concat_eq_iff
    (htree : IsTree setup) (h : IsStack setup (below ++ [top])) :
    functionsOf setup (below ++ [{ top with tokenPos := pos }]) =
      functionsOf setup (below ++ [top]) ↔ top.tokenPos = pos := by
  constructor
  · intro heq
    obtain ⟨l, hl⟩ := h.exists_functionsOf htree
    obtain ⟨l₁, function₁, -, -, hl1⟩ := functionsOf_concat.mp hl
    obtain ⟨l₂, function₂, -, -, hl2⟩ := functionsOf_concat.mp (heq.trans hl)
    have hlast := (append_inj' (hl1.symm.trans hl2) rfl).2
    exact (Prod.mk.inj (List.singleton_inj.mp hlast)).2
  · rintro rfl
    rfl

/-- Buffering a position is a change of the recorded value. -/
theorem Refines.exists_bufferChangePosition (h : Refines lim setup root s t) (htree : IsTree setup)
    (hcovers : lim.Covers setup) (hpos : pos ∈ lim.positions) :
    ∃ s' v, s.bufferChangePosition pos = some s' ∧ Refines lim setup root s' (t.change v) ∧
      s'.bufferedPcOffset = s.bufferedPcOffset ∧
      (v = t.value ↔ s.buffered.getLast?.map Frame.tokenPos = some pos) := by
  obtain ⟨below, top, hbuffered, hcontext⟩ := h.valid.buffered.isStack
  have hstack : StackIn lim setup (below ++ [{ top with tokenPos := pos }]) :=
    stackIn_concat hcovers hcontext hpos
  have hset : setTop s.buffered pos = some (below ++ [{ top with tokenPos := pos }]) := by
    rw [setTop, hbuffered, getLast?_concat, dropLast_concat]
    rfl
  refine ⟨{ s with buffered := below ++ [{ top with tokenPos := pos }] }, _, ?_,
    h.setBuffered hstack, rfl, ?_⟩
  · rw [Builder.bufferChangePosition, hset]
    rfl
  · rw [← h.value, hbuffered,
      functionsOf_concat_eq_iff htree (hbuffered ▸ h.valid.buffered.isStack)]
    simp

/-! ## Calls -/

/-- What a call leaves behind, if `keeps` says whether it keeps what is pending. -/
def CallSpec (lim : Limits) (setup : Setup F) (root : F) (s : Builder F) (t : State (View F))
    (pc : ℤ) (keeps : Prop) (s' : Builder F) : Prop :=
  ∃ t', Refines lim setup root s' t' ∧
    Gets keeps t t' ⟨s.bufferedPcOffset, s'.bufferedPcOffset, functionsOf setup s'.buffered⟩ ∧
    (s'.bufferedPcOffset = s.bufferedPcOffset ∨ s'.bufferedPcOffset = pc)

/-- A call meets its specification if the recorder keeps what was noted. -/
theorem Refines.callSpec_of_preserves {t' : State (View F)} (h : Refines lim setup root s t)
    (h' : Refines lim setup root s' t') (hpreserves : Preserves t t') :
    CallSpec lim setup root s t pc True s' := by
  have hpc : s'.bufferedPcOffset = s.bufferedPcOffset := by
    rw [h'.bufferedPc, hpreserves.buffered, h.bufferedPc]
  refine ⟨t'.advance t.buffered, ?_, ?_, .inl hpc⟩
  · exact ⟨h'.valid, by rw [h'.bufferedPc, hpreserves.buffered]; rfl, h'.writtenPc, h'.value,
      h'.decodes⟩
  · have hgets := hpreserves.gets (le_refl t.buffered)
    rwa [h'.value, hpc, h.bufferedPc]

/-- **`WriteNullCheck`** is ignored by the reader. -/
theorem CallSpec.returns_writeNullCheck {keeps : Prop} {nameIndex : ℤ}
    (h : CallSpec lim setup root s t pc keeps s') (hname : nameIndex ∈ lim.names) :
    Returns (¬lim.InRange setup) (s'.writeNullCheck nameIndex)
      (CallSpec lim setup root s t pc keeps) := by
  obtain ⟨t', hrefines, hgets, hpc⟩ := h
  apply (returns_writeOp fun harg hrange => harg (hrange.names nameIndex hname)).mono
  rintro s'' ⟨-, bytes, hbytes, rfl⟩
  have hwrites : Writes setup s' { s' with stream := s'.stream ++ bytes } :=
    Writes.of_instr hbytes (by decide) prefix_rfl (fun h => h)
      fun _ _ r hr => ⟨r.stack, rfl, hr⟩
  have hvalid := hrefines.valid
  exact ⟨t', ⟨⟨hvalid.buffered, hvalid.written, hwrites.known hvalid.known, hvalid.bufferedPc_mem,
    hvalid.writtenPc_mem⟩, hrefines.bufferedPc, hrefines.writtenPc, hrefines.value,
    hrefines.decodes.writes hwrites⟩, hgets, hpc⟩

section Calls

variable [DecidableEq F] (h : Refines lim setup root s t) (hinv : Inv t) (htree : IsTree setup)
  (hcovers : lim.Covers setup) (hmode : setup.stackTracesOnly = false)
include h hinv htree hcovers hmode

/-- **Flushing** writes the buffered state, and fails only for arguments out of range. -/
theorem Refines.returns_flush : Returns (¬lim.InRange setup) (s.flushUnlessStackTracesOnly setup)
    fun s' => Refines lim setup root s' t.flush := by
  rw [Builder.flushUnlessStackTracesOnly, hmode, if_neg (by decide)]
  exact h.returns_flushBuffer htree hcovers.initial hinv.le

/-- **`StartInliningInterval`** flushes before it switches to another function. -/
theorem Refines.returns_startInliningInterval
    (hid : source.inliningId < setup.callerInlineId.length) :
    Returns (¬lim.InRange setup) (s.startInliningInterval setup source) fun s' => ∃ t',
      Refines lim setup root s' t' ∧ Preserves t t' ∧
      (if s.startsInterval source then t'.written = t'.buffered else s' = s ∧ t' = t) := by
  apply returns_ite
  · intro hstarts
    apply (h.returns_flush hinv htree hcovers hmode).bind
    intro s₁ hrefines
    have hnonneg : 0 ≤ source.inliningId := by
      rw [Builder.startsInterval, Bool.and_eq_true] at hstarts
      simpa using hstarts.2
    obtain ⟨below, top, hswitch, hcontext, hpos⟩ :=
      exists_switchTo htree hrefines.valid.buffered.isStack hnonneg hid
    have htop : top.tokenPos ∈ lim.positions := by
      rcases hpos with ⟨f, hf, heq⟩ | heq
      · rw [heq]
        exact hrefines.valid.buffered.positions f hf
      · rw [heq]
        exact hcovers.initial
    rw [hswitch]
    exact ⟨_, hrefines.setBuffered (stackIn_concat hcovers hcontext htop),
      hinv.preserves_flush_change _, by rw [if_pos hstarts]; rfl⟩
  · intro hstarts
    exact ⟨t, h, hinv.preserves_self, by rw [if_neg hstarts]; exact ⟨rfl, rfl⟩⟩

/-- The position of `EndCodeSourceRange`: what is pending is flushed before it is changed. -/
theorem Refines.returns_flushAndChangePosition (hpos : pos ∈ lim.positions) :
    Returns (¬lim.InRange setup) (s.flushAndChangePosition setup pos) fun s' => ∃ t',
      Refines lim setup root s' t' ∧ Preserves t t' := by
  obtain ⟨below, top, hbuffered, -⟩ := h.valid.buffered.isStack
  have htop : s.buffered.getLast? = some top := by rw [hbuffered, getLast?_concat]
  apply returns_bind_of_eq htop
  apply returns_ite
  · intro _
    apply (h.returns_flush hinv htree hcovers hmode).bind
    intro s₁ hrefines
    obtain ⟨s₂, v, hchange, hrefines2, -, -⟩ :=
      hrefines.exists_bufferChangePosition htree hcovers hpos
    rw [hchange]
    exact ⟨_, hrefines2, hinv.preserves_flush_change v⟩
  · intro _
    exact ⟨t, h, hinv.preserves_self⟩

/-- **`EndCodeSourceRange`.** -/
theorem Refines.returns_endCodeSourceRange
    (hid : source.inliningId < setup.callerInlineId.length) (hpos : source.tokenPos ∈ lim.positions)
    (hpc : pc ∈ lim.offsets) (hle : s.bufferedPcOffset ≤ pc) :
    Returns (¬lim.InRange setup) (s.endCodeSourceRange setup pc source)
      (CallSpec lim setup root s t pc True) := by
  apply returns_ite
  · intro _
    exact h.callSpec_of_preserves h hinv.preserves_self
  intro _
  apply (h.returns_startInliningInterval hinv htree hcovers hmode hid).bind
  rintro s₁ ⟨t₁, hrefines1, hpreserves1, -⟩
  apply (hrefines1.returns_flushAndChangePosition hpreserves1.inv htree hcovers hmode hpos).bind
  rintro s₂ ⟨t₂, hrefines2, hpreserves2⟩
  have hrefines := hrefines2.bufferAdvancePC hpc
  have hgets := (hpreserves1.trans hpreserves2).gets (h.bufferedPc ▸ hle)
  have hpc' : (s₂.bufferAdvancePC (pc - s₂.bufferedPcOffset)).bufferedPcOffset = pc :=
    hrefines.bufferedPc
  refine ⟨_, hrefines, ?_, .inr hpc'⟩
  rw [hpc', hrefines.value, h.bufferedPc]
  exact hgets

/-- **`NoteDescriptor` and `NoteNullCheck`** change the position of all that is pending. -/
theorem Refines.returns_note (hid : source.inliningId < setup.callerInlineId.length)
    (hpos : source.tokenPos ∈ lim.positions) (hpc : pc ∈ lim.offsets)
    (hle : s.bufferedPcOffset ≤ pc) :
    Returns (¬lim.InRange setup) (s.note setup pc source)
      (CallSpec lim setup root s t pc (KeepsPending s source)) := by
  apply (h.returns_startInliningInterval hinv htree hcovers hmode hid).bind
  rintro s₁ ⟨t₁, hrefines1, hpreserves, hstarts⟩
  obtain ⟨s₂, v, hchange, hrefines2, hpc2, hv⟩ :=
    hrefines1.exists_bufferChangePosition htree hcovers hpos
  apply returns_bind_of_eq hchange
  have hrefines3 := hrefines2.bufferAdvancePC hpc
  have hle1 : t₁.buffered ≤ pc := by rwa [hpreserves.buffered, ← h.bufferedPc]
  apply (hrefines3.returns_flushBuffer htree hcovers.initial (hpreserves.inv.le.trans hle1)).mono
  intro s' hrefines
  have hgets := hpreserves.gets_overwrite (v := v) (h.bufferedPc ▸ hle)
  -- The condition is that of the state before the call.
  have hkeeps : KeepsPending s source ↔ t₁.written = t₁.buffered ∨ v = t₁.value := by
    rw [KeepsPending]
    split_ifs at hstarts with hstart
    · exact iff_of_true (.inl hstart) (.inl hstarts)
    · obtain ⟨rfl, rfl⟩ := hstarts
      rw [hv, ← h.writtenPc, ← h.bufferedPc]
      simp [hstart]
  have hpc' : s'.bufferedPcOffset = pc := hrefines.bufferedPc
  refine ⟨_, hrefines, ?_, .inr hpc'⟩
  rw [hpc', hrefines.value, h.bufferedPc, hkeeps]
  exact hgets

/-- **Step lemma.** -/
theorem Refines.returns_step {call : Call} (hcall : lim.CoversCall setup call)
    (hle : s.bufferedPcOffset ≤ call.pcOffset) :
    Returns (¬lim.InRange setup) (s.step setup call)
      (CallSpec lim setup root s t call.pcOffset (Keeps s call)) := by
  obtain ⟨hpos, hpc, hname, hid⟩ := hcall
  cases call with
  | beginCodeSourceRange pc source =>
    apply (h.returns_startInliningInterval hinv htree hcovers hmode hid).mono
    rintro s' ⟨t', hrefines, hpreserves, -⟩
    exact h.callSpec_of_preserves hrefines hpreserves
  | endCodeSourceRange pc source =>
    exact h.returns_endCodeSourceRange hinv htree hcovers hmode hid hpos hpc hle
  | noteDescriptor kind pc source =>
    apply returns_ite
    · intro hkind
      have hkeeps : Keeps s (.noteDescriptor kind pc source) = KeepsPending s source :=
        propext ⟨fun hkeeps => hkeeps hkind, fun hkeeps _ => hkeeps⟩
      rw [hkeeps]
      exact h.returns_note hinv htree hcovers hmode hid hpos hpc hle
    · intro hkind
      have hkeeps : Keeps s (.noteDescriptor kind pc source) = True :=
        eq_true fun hthrows => absurd hthrows hkind
      rw [hkeeps]
      exact h.callSpec_of_preserves h hinv.preserves_self
  | noteNullCheck pc source nameIndex =>
    apply (h.returns_note hinv htree hcovers hmode hid hpos hpc hle).bind
    intro s₁ hspec
    exact hspec.returns_writeNullCheck (hname pc source nameIndex rfl)

/-- **Run lemma.** The values are exact just when they were and no call overwrites
what is pending. -/
theorem Refines.returns_runCalls
    (hcalls : ∀ call ∈ calls, lim.CoversCall setup call)
    (hsorted : (s.bufferedPcOffset :: calls.map Call.pcOffset).Pairwise (· ≤ ·)) :
    Returns (¬lim.InRange setup) (runCalls setup s calls) fun (s', intervals) => ∃ t',
      Refines lim setup root s' t' ∧ Inv t' ∧ t'.intervals = t.intervals ++ intervals ∧
      (Exact t' ↔ Exact t ∧ KeepsAll setup s calls) := by
  induction calls generalizing s t with
  | nil => exact ⟨t, h, hinv, by simp, by simp [KeepsAll]⟩
  | cons call calls ih =>
    rw [map_cons, pairwise_cons, forall_mem_cons] at hsorted
    obtain ⟨⟨hle, hrest⟩, hsorted⟩ := hsorted
    rw [forall_mem_cons] at hcalls
    have hstep := h.returns_step hinv htree hcovers hmode hcalls.1 hle
    rw [runCalls]
    cases hs' : s.step setup call with
    | none => rwa [hs'] at hstep
    | some s' =>
      rw [hs'] at hstep
      obtain ⟨t', hrefines, hgets, hpc⟩ := hstep
      have hsorted' : (s'.bufferedPcOffset :: calls.map Call.pcOffset).Pairwise (· ≤ ·) := by
        rw [pairwise_cons] at hsorted ⊢
        refine ⟨fun p hp => ?_, hsorted.2⟩
        rcases hpc with heq | heq
        · rw [heq]
          exact hrest p hp
        · rw [heq]
          exact hsorted.1 p hp
      apply (ih hrefines hgets.inv hcalls.2 hsorted').bind
      rintro ⟨s'', intervals⟩ ⟨t'', hrefines'', hinv'', hintervals, hexact⟩
      refine ⟨t'', hrefines'', hinv'', ?_, ?_⟩
      · rw [hintervals, hgets.intervals, append_assoc, singleton_append]
      -- Exactness is lost once for all, at the first call that overwrites.
      have hnext : KeepsAll setup s (call :: calls) ↔
          Keeps s call ∧ KeepsAll setup s' calls := by
        rw [KeepsAll, hs']
        simp
      rw [hexact, hnext, ← and_assoc]
      refine and_congr_left fun _ => ⟨fun hexact' => ?_, fun hold => ?_⟩
      · have hold := hgets.exact_of_exact hexact'
        exact ⟨hold, (hgets.exact_iff hold).mp hexact'⟩
      · exact (hgets.exact_iff hold.1).mpr hold.2

/-- **`Finalize`** flushes what is pending; the reader finds what was recorded. -/
theorem Refines.returns_finalize :
    Returns (¬lim.InRange setup) (s.finalize setup) fun (map, functions) =>
      ∀ pc, 0 ≤ pc → pc < t.buffered →
        getInlinedFunctionsAt map functions root pc = t.flush.recorded pc := by
  apply (h.returns_flush hinv htree hcovers hmode).bind
  intro s' hrefines pc hpos hlt
  exact hrefines.decodes.getInlinedFunctionsAt_eq hpos (hrefines.writtenPc ▸ hlt)

end Calls

/-! ## Correctness -/

/-- The name index of a null check. -/
def Call.nameIndex? : Call → Option ℤ
  | noteNullCheck _ _ nameIndex => some nameIndex
  | _ => none

/-- The positions, pc offsets and name indices of a run. -/
def limitsOf (setup : Setup F) (calls : List Call) : Limits where
  positions := kInitialPosition :: (setup.inlineIdToTokenPos ++ calls.map (·.source.tokenPos))
  offsets := 0 :: calls.map Call.pcOffset
  names := calls.filterMap Call.nameIndex?

/-- The limits computed from a sequence of calls cover the inlining tree. -/
theorem limitsOf_covers (setup : Setup F) (calls : List Call) :
    (limitsOf setup calls).Covers setup :=
  ⟨mem_cons_self .., fun _ hp => mem_cons_of_mem _ (mem_append_left _ hp)⟩

/-- The limits computed from a sequence of calls cover each of them. -/
theorem limitsOf_coversCall
    (hids : ∀ call ∈ calls, call.source.inliningId < setup.callerInlineId.length) :
    ∀ call ∈ calls, (limitsOf setup calls).CoversCall setup call := by
  intro call hcall
  refine ⟨?_, mem_cons_of_mem _ (List.mem_map_of_mem hcall), ?_, hids call hcall⟩
  · exact mem_cons_of_mem _ (mem_append_right _ (List.mem_map.mpr ⟨call, hcall, rfl⟩))
  · rintro pc source nameIndex rfl
    exact mem_filterMap.mpr ⟨_, hcall, rfl⟩

/-- The recorder of a new builder. -/
def newRecorder (setup : Setup F) : State (View F) :=
  ⟨0, 0, functionsOf setup [⟨0, kInitialPosition⟩], fun _ => none, []⟩

/-- Nothing is pending at the start. -/
theorem inv_newRecorder : Inv (newRecorder setup) :=
  ⟨le_refl 0, le_refl 0, by simp [newRecorder], by simp [newRecorder],
    fun pc hpos hlt => absurd hlt (not_lt.mpr hpos), List.Pairwise.nil, by simp [newRecorder]⟩

/-- A new builder refines a new recorder. -/
theorem refines_newBuilder (hcovers : lim.Covers setup) (hoffset : 0 ∈ lim.offsets)
    (hroot : get? setup.inlineIdToFunction 0 = some root) :
    Refines lim setup root newBuilder (newRecorder setup) := by
  have hstack : StackIn lim setup ([] ++ [⟨0, kInitialPosition⟩]) :=
    stackIn_concat hcovers IsContext.root hcovers.initial
  refine ⟨⟨hstack, hstack, ⟨nodup_nil, nil_subset _⟩, hoffset, hoffset⟩, rfl, rfl, rfl,
    [], rfl, fun functions _ => ⟨startReader root, ⟨?_, rfl⟩, fun pc more => ⟨fun _ => rfl, ?_⟩⟩⟩
  · have hview : functionsOf setup ([] ++ [⟨0, kInitialPosition⟩]) =
        some [(root, kInitialPosition)] :=
      functionsOf_concat.mpr ⟨[], root, rfl, hroot, rfl⟩
    exact hview
  · exact fun hpos hlt => absurd hlt (not_lt.mpr hpos)

variable [DecidableEq F]

/-- **Code source maps are exact if and only if no position is overwritten.** Unless an argument is
out of range, the builder returns; its intervals cover the pc offsets, and `GetInlinedFunctionsAt`
returns the buffered stack for each of them, if and only if no call of `NoteDescriptor` or
`NoteNullCheck` changes a position while an interval is pending. -/
theorem getInlinedFunctionsAt_eq_iff (setup : Setup F) (root : F) (calls : List Call)
    (htree : IsTree setup) (hmode : setup.stackTracesOnly = false)
    (hroot : get? setup.inlineIdToFunction 0 = some root)
    (hids : ∀ call ∈ calls, call.source.inliningId < setup.callerInlineId.length)
    (hsorted : (0 :: calls.map Call.pcOffset).Pairwise (· ≤ ·)) :
    Returns (¬(limitsOf setup calls).InRange setup) (build setup calls)
      fun (map, functions, intervals) =>
        (intervals.Pairwise fun i j => i.stop ≤ j.start) ∧
        (∀ pc, 0 ≤ pc → (∃ i ∈ intervals, pc < i.stop) →
          ∃ i ∈ intervals, i.start ≤ pc ∧ pc < i.stop) ∧
        ((∀ i ∈ intervals, ∀ pc, i.start ≤ pc → pc < i.stop →
          getInlinedFunctionsAt map functions root pc = i.value) ↔
            KeepsAll setup newBuilder calls) := by
  have hcovers := limitsOf_covers setup calls
  have hrefines := refines_newBuilder hcovers (mem_cons_self ..) hroot
  apply (hrefines.returns_runCalls inv_newRecorder htree hcovers hmode (limitsOf_coversCall hids)
    hsorted).bind
  rintro ⟨s, intervals⟩ ⟨t, hrefines, hinv, hintervals, hexact⟩
  apply (hrefines.returns_finalize hinv htree hcovers hmode).bind
  rintro ⟨map, functions⟩ hread
  obtain rfl : t.intervals = intervals := hintervals
  refine ⟨hinv.ordered, fun pc hpos hlast => ?_, ?_⟩
  · obtain ⟨i, hi, hlt⟩ := hlast
    exact hinv.covered pc hpos (lt_of_lt_of_le hlt (hinv.within i hi))
  have hnew : Exact (newRecorder setup) := fun i hi => absurd hi (by simp [newRecorder])
  rw [← hinv.exact_flush] at hexact
  rw [iff_true_intro hnew, true_and] at hexact
  rw [← hexact]
  -- Below the flushed pc offset, the reader returns what was recorded.
  have heq : ∀ i ∈ t.intervals, ∀ pc, i.start ≤ pc → pc < i.stop →
      getInlinedFunctionsAt map functions root pc = t.flush.recorded pc := by
    intro i hi pc hstart hstop
    exact hread pc ((hinv.start_nonneg i hi).trans hstart)
      (lt_of_lt_of_le hstop (hinv.within i hi))
  constructor
  · intro h i hi pc hstart hstop _
    rw [← heq i hi pc hstart hstop]
    exact h i hi pc hstart hstop
  · intro h i hi pc hstart hstop
    rw [heq i hi pc hstart hstop]
    exact h i hi pc hstart hstop (lt_of_lt_of_le hstop (hinv.within i hi))

/-- A root function, numbered 7, with one inlined call of another, numbered 8. -/
def sampleSetup : Setup ℕ := ⟨false, [-1, 0], [40], [7, 8]⟩

/-- The inlining table of the examples is a tree. -/
theorem isTree_sampleSetup : IsTree sampleSetup := by
  refine ⟨by decide, fun id hid hlt => ?_, rfl⟩
  have hcases : id = 0 ∨ id = 1 := by
    have hlt' : id < 2 := hlt
    omega
  rcases hcases with rfl | rfl
  · exact ⟨[], .root⟩
  · exact ⟨_, .call .root (by decide) rfl rfl⟩

/-- The map of a call that switches to the root after the inlined function is exact. -/
theorem getInlinedFunctionsAt_eq_iff_switch : ∃ map functions intervals,
    build sampleSetup [.endCodeSourceRange 4 ⟨100, 1⟩, .noteDescriptor kOther 8 ⟨200, 0⟩] =
      some (map, functions, intervals) ∧
    intervals.head? = some ⟨0, 4, some [(7, 40), (8, 100)]⟩ ∧
    ∀ i ∈ intervals, ∀ pc, i.start ≤ pc → pc < i.stop →
      getInlinedFunctionsAt map functions 7 pc = i.value := by
  have hkeeps : KeepsAll sampleSetup newBuilder
      [.endCodeSourceRange 4 ⟨100, 1⟩, .noteDescriptor kOther 8 ⟨200, 0⟩] := by
    refine ⟨trivial, fun s' hs' => ⟨fun _ => .inl ?_, fun _ _ => trivial⟩⟩
    cases hs'
    rfl
  have hexact := getInlinedFunctionsAt_eq_iff sampleSetup 7
    [.endCodeSourceRange 4 ⟨100, 1⟩, .noteDescriptor kOther 8 ⟨200, 0⟩] isTree_sampleSetup rfl rfl
    (by decide) (by decide)
  exact ⟨_, _, _, rfl, rfl, hexact.2.2.mpr hkeeps⟩

/-- The position 100 of the first interval is overwritten by that of the descriptor. -/
theorem noteDescriptor_overwrites_pending : ∃ map functions intervals,
    build sampleSetup [.endCodeSourceRange 4 ⟨100, 0⟩, .noteDescriptor kOther 8 ⟨200, 0⟩] =
      some (map, functions, intervals) ∧
    intervals.head? = some ⟨0, 4, some [(7, 100)]⟩ ∧
    getInlinedFunctionsAt map functions 7 2 = some [(7, 200)] :=
  ⟨_, _, _, rfl, rfl, rfl⟩

end DartVm.CodeSourceMap
