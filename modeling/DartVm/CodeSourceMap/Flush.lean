import DartVm.CodeSourceMap.Stacks

/-! # Flushing the buffer

`Writes setup s s'` says that the builder has written operations which lead a reader from the
written stack of `s` to that of `s'`.  `FlushBuffer` leads it to the buffered stack and then
advances the pc offset, so that a reader shows the buffered stack at the pc offsets in between.

* `Writes`: what written operations do to a reader.
* `returns_writeChangePosition`, `returns_writePop`, `returns_writePush`: one operation each.
* `returns_flushStack`: the reader arrives at the buffered stack. -/

namespace DartVm.CodeSourceMap

open DataStream Postcondition List Option

variable {F : Type} {setup : Setup F} {s s' s'' : Builder F} {below : List Frame} {id : ℤ}
  {pos : TokenPosition} {f g : Frame} {root : F} {decoded : ℤ → List Frame}

/-! ## What a reader shows -/

/-- The functions and positions of a stack. -/
def functionsOf (setup : Setup F) (stack : List Frame) : Option (List (F × TokenPosition)) :=
  stack.mapM fun f => (get? setup.inlineIdToFunction f.inlineId).map (·, f.tokenPos)

/-- The functions of a stack with one more frame. -/
theorem functionsOf_concat {l : List (F × TokenPosition)} :
    functionsOf setup (below ++ [f]) = some l ↔ ∃ l' function, functionsOf setup below = some l' ∧
      get? setup.inlineIdToFunction f.inlineId = some function ∧
      l = l' ++ [(function, f.tokenPos)] := by
  simp only [functionsOf, mapM_append, mapM_cons, mapM_nil, bind_eq_bind,
    Option.pure_def, bind_some, bind_eq_some_iff, map_eq_some_iff, some.injEq]
  constructor
  · rintro ⟨l', hl', _, ⟨_, ⟨function, hfunction, rfl⟩, rfl⟩, rfl⟩
    exact ⟨l', function, hl', hfunction, rfl⟩
  · rintro ⟨l', function, hl', hfunction, rfl⟩
    exact ⟨l', hl', _, ⟨_, ⟨function, hfunction, rfl⟩, rfl⟩, rfl⟩

/-- The reader has the stack and pc offset that the builder has written. -/
structure Shows (setup : Setup F) (s : Builder F) (r : Reader F) : Prop where
  stack : functionsOf setup s.written = some r.stack
  pcOffset : r.currentPcOffset = s.writtenPcOffset

/-- `inlined_functions_` has functions of the inlining tree, each once. -/
structure Known (setup : Setup F) (s : Builder F) : Prop where
  nodup : s.inlinedFunctions.Nodup
  subset : s.inlinedFunctions ⊆ setup.inlineIdToFunction

/-- **Written operations** that do not advance the pc offset. -/
structure Writes (setup : Setup F) (s s' : Builder F) : Prop where
  buffered : s'.buffered = s.buffered
  bufferedPcOffset : s'.bufferedPcOffset = s.bufferedPcOffset
  writtenPcOffset : s'.writtenPcOffset = s.writtenPcOffset
  functions : s.inlinedFunctions <+: s'.inlinedFunctions
  known : Known setup s → Known setup s'
  exists_script : ∃ script bytes, bytesOf script = some bytes ∧ s'.stream = s.stream ++ bytes ∧
    (∀ x ∈ script, x.1 ≠ .advancePC) ∧
    ∀ functions, s'.inlinedFunctions <+: functions → ∀ r, Shows setup s r →
      ∃ r', script.foldlM (execInstr functions) r = some r' ∧ Shows setup s' r'

theorem Writes.refl (s : Builder F) : Writes setup s s :=
  ⟨rfl, rfl, rfl, prefix_rfl, fun h => h, [], [], rfl, by simp, by simp,
    fun _ _ r hr => ⟨r, rfl, hr⟩⟩

theorem Writes.trans (h : Writes setup s s') (h' : Writes setup s' s'') : Writes setup s s'' := by
  obtain ⟨script, bytes, hbytes, hstream, hscript, hexec⟩ := h.exists_script
  obtain ⟨script', bytes', hbytes', hstream', hscript', hexec'⟩ := h'.exists_script
  refine ⟨h'.buffered.trans h.buffered, h'.bufferedPcOffset.trans h.bufferedPcOffset,
    h'.writtenPcOffset.trans h.writtenPcOffset, h.functions.trans h'.functions,
    h'.known ∘ h.known, script ++ script', bytes ++ bytes', bytesOf_append hbytes hbytes', ?_, ?_,
    fun functions hfunctions r hr => ?_⟩
  · rw [hstream', hstream, append_assoc]
  · intro x hx
    exact (mem_append.mp hx).elim (hscript x) (hscript' x)
  · obtain ⟨r₁, hr1, hshows1⟩ := hexec functions (h'.functions.trans hfunctions) r hr
    obtain ⟨r₂, hr2, hshows2⟩ := hexec' functions hfunctions r₁ hshows1
    exact ⟨r₂, by rw [foldlM_append, hr1]; exact hr2, hshows2⟩

/-! ## Arguments -/

/-- The values from which the arguments of the operations are computed. -/
structure Limits where
  positions : List TokenPosition
  offsets : List ℤ
  names : List ℤ

/-- **Arguments in range.** -/
structure Limits.InRange (lim : Limits) (setup : Setup F) : Prop where
  positions : ∀ p ∈ lim.positions, ∀ q ∈ lim.positions, ArgInRange (p - q).toInt
  functions : ∀ i : ℕ, i < setup.inlineIdToFunction.length → ArgInRange i
  offsets : ∀ p ∈ lim.offsets, ∀ q ∈ lim.offsets, p ≤ q → ArgInRange (q - p)
  names : ∀ n ∈ lim.names, ArgInRange n

variable {lim : Limits} {rest : List Frame} {arg : ℤ} {stack : List Frame} {op : Opcode}

/-- An argument in range can be written. -/
theorem exists_writeOp (op : Opcode) (h : ArgInRange arg) :
    ∃ bytes, writeOp op arg = some bytes := by
  rw [writeOp, if_pos h]
  obtain ⟨bytes, hbytes, -⟩ := write_marked (by decide) (encode op arg)
  exact ⟨bytes, hbytes⟩

/-- Writing an instruction fails only for an argument out of range. -/
theorem returns_writeOp {abort : Prop}
    (habort : ¬ArgInRange arg → abort) :
    Returns abort (s.writeOp op arg) fun s' => ArgInRange arg ∧ ∃ bytes,
      bytesOf [(op, arg)] = some bytes ∧ s' = { s with stream := s.stream ++ bytes } := by
  by_cases harg : ArgInRange arg
  · obtain ⟨bytes, hbytes⟩ := exists_writeOp op harg
    rw [Builder.writeOp, hbytes]
    exact ⟨harg, bytes, by simp [bytesOf, hbytes], rfl⟩
  · rw [Builder.writeOp, writeOp, if_neg harg]
    exact habort harg

/-- An instruction that is not an advance changes the reader's stack at the current offset. -/
theorem Writes.of_instr {bytes : List Byte}
    (hbytes : bytesOf [(op, arg)] = some bytes) (hop : op ≠ .advancePC)
    {written : List Frame} {inlined : List F}
    (hfunctions : s.inlinedFunctions <+: inlined)
    (hknown : Known setup s → Known setup { s with inlinedFunctions := inlined })
    (hexec : ∀ functions, inlined <+: functions → ∀ r : Reader F,
      functionsOf setup s.written = some r.stack →
      ∃ l, r.exec functions op (BitVec.ofInt 32 arg) = some { r with stack := l } ∧
        functionsOf setup written = some l) :
    Writes setup s { s with written, inlinedFunctions := inlined, stream := s.stream ++ bytes } :=
  ⟨rfl, rfl, rfl, hfunctions, fun h => ⟨(hknown h).nodup, (hknown h).subset⟩, [(op, arg)], bytes,
    hbytes, rfl, by simpa using hop, fun functions hprefix r hr => by
      obtain ⟨l, hl, hshows⟩ := hexec functions hprefix r hr.stack
      refine ⟨{ r with stack := l }, ?_, hshows, hr.pcOffset⟩
      rw [foldlM_cons, execInstr, hl]
      rfl⟩

/-! ## The operations -/

/-- **`WriteChangePosition`.** The reader adds the difference to the old position. -/
theorem returns_writeChangePosition (hwritten : s.written = below ++ [g])
    (hpos : pos ∈ lim.positions) (hg : g.tokenPos ∈ lim.positions) :
    Returns (¬lim.InRange setup) (s.writeChangePosition pos) fun s' => Writes setup s s' ∧
      s'.written = below ++ [{ g with tokenPos := pos }] := by
  rw [Builder.writeChangePosition, hwritten, getLast?_concat, bind_eq_bind]
  apply (returns_writeOp fun harg hrange => harg (hrange.positions pos hpos _ hg)).bind
  rintro s' ⟨-, bytes, hbytes, rfl⟩
  simp only [setTop, hwritten, getLast?_concat, dropLast_concat, bind_eq_bind,
    bind_some, returns_some, and_true]
  apply Writes.of_instr hbytes (by decide) prefix_rfl (fun h => h)
  intro functions _ r hr
  rw [hwritten, functionsOf_concat] at hr
  obtain ⟨l, function, hl, hfunction, hstack⟩ := hr
  refine ⟨l ++ [(function, pos)], ?_, functionsOf_concat.mpr ⟨l, function, hl, hfunction, rfl⟩⟩
  simp only [Reader.exec, hstack, getLast?_concat, dropLast_concat, bind_eq_bind,
    bind_some, BitVec.ofInt_toInt, BitVec.sub_add_cancel]

/-- **`WritePop`.** The root is not popped. -/
theorem returns_writePop (hwritten : s.written = below ++ [g]) (hbelow : below ≠ []) :
    Returns (¬lim.InRange setup) s.writePop fun s' => Writes setup s s' ∧ s'.written = below := by
  apply (returns_writeOp fun harg => absurd (by decide) harg).bind
  rintro s' ⟨-, bytes, hbytes, rfl⟩
  have hdrop : s.written.dropLast = below := by rw [hwritten, dropLast_concat]
  simp only [hdrop, returns_some, and_true]
  apply Writes.of_instr hbytes (by decide) prefix_rfl (fun h => h)
  intro functions _ r hr
  rw [hwritten, functionsOf_concat] at hr
  obtain ⟨l, function, hl, -, hstack⟩ := hr
  refine ⟨l, ?_, hl⟩
  rcases eq_nil_or_concat below with hnil | ⟨below', f, rfl⟩
  · exact absurd hnil hbelow
  · rw [concat_eq_append, functionsOf_concat] at hl
    obtain ⟨l', function', -, -, rfl⟩ := hl
    simp [Reader.exec, hstack]

section Functions

variable [DecidableEq F]

variable {function : F} (hknown : Known setup s)
  (hfunction : get? setup.inlineIdToFunction id = some function)
include hknown hfunction

/-- **`GetFunctionId`** returns the index of the function. -/
theorem exists_getFunctionId :
    ∃ i inlined, s.getFunctionId setup id = some (i, { s with inlinedFunctions := inlined }) ∧
      s.inlinedFunctions <+: inlined ∧ Known setup { s with inlinedFunctions := inlined } ∧
      inlined[i]? = some function := by
  rw [Builder.getFunctionId, hfunction, bind_eq_bind, bind_some]
  cases hfind : s.inlinedFunctions.findIdx? (· == function) with
  | some i =>
    obtain ⟨hlt, heq, -⟩ := findIdx?_eq_some_iff_getElem.mp hfind
    refine ⟨i, s.inlinedFunctions, rfl, prefix_rfl, ⟨hknown.nodup, hknown.subset⟩, ?_⟩
    rw [getElem?_eq_getElem hlt, beq_iff_eq.mp heq]
  | none =>
    rw [findIdx?_eq_none_iff] at hfind
    have hnew : function ∉ s.inlinedFunctions := fun hmem => by simpa using hfind function hmem
    have hmem : function ∈ setup.inlineIdToFunction := by
      rw [get?] at hfunction
      split_ifs at hfunction
      exact mem_of_getElem? hfunction
    refine ⟨_, s.inlinedFunctions ++ [function], rfl, prefix_append .., ⟨?_, ?_⟩, by simp⟩
    · exact hknown.nodup.append (nodup_singleton _) (by simpa using hnew)
    · exact append_subset.mpr ⟨hknown.subset, by simpa using hmem⟩

/-- **`WritePush`.** -/
theorem returns_writePush :
    Returns (¬lim.InRange setup) (s.writePush setup id) fun s' => Writes setup s s' ∧
      s'.written = s.written ++ [⟨id, kInitialPosition⟩] := by
  obtain ⟨i, inlined, hid, hinlined, hknown', hget⟩ := exists_getFunctionId hknown hfunction
  obtain ⟨hi, -⟩ := List.getElem?_eq_some_iff.mp hget
  -- Each function is in the array once, so its index is below their number.
  have hle := (hknown'.nodup.subperm hknown'.subset).length_le
  apply returns_bind_of_eq hid
  apply (returns_writeOp fun harg hrange => harg (hrange.functions i (hi.trans_le hle))).bind
  rintro s' ⟨harg, bytes, hbytes, rfl⟩
  refine ⟨?_, rfl⟩
  apply Writes.of_instr hbytes (by decide) hinlined (fun _ => hknown')
  intro functions hfunctions r hr
  have hread : get? functions (BitVec.ofInt 32 i).toInt = some function := by
    rw [toInt_ofInt_of_argInRange harg, get?, Int.toNat_natCast]
    obtain ⟨more, rfl⟩ := hfunctions
    rwa [getElem?_append_left hi]
  refine ⟨r.stack ++ [(function, kInitialPosition)], ?_,
    functionsOf_concat.mpr ⟨r.stack, function, hr, hfunction, rfl⟩⟩
  rw [Reader.exec, hread]
  rfl

end Functions

/-! ## Flushing -/

/-- Every stack has the root at its bottom. -/
theorem IsStack.exists_root (h : IsStack setup stack) :
    ∃ bottom rest, stack = bottom :: rest ∧ bottom.inlineId = 0 := by
  obtain ⟨below, top, rfl, hcontext⟩ := h
  exact hcontext.head_inlineId top rfl

section

variable {buffered written : List Frame} (hbuffered : IsStack setup buffered)
  (hwritten : IsStack setup written) {k : ℕ}
include hbuffered hwritten

/-- Stacks that agree on the interval at one height agree on everything below it. -/
theorem IsStack.exists_common {f g : Frame} (hf : buffered[k]? = some f)
    (hg : written[k]? = some g) (hid : f.inlineId = g.inlineId) :
    ∃ below rest rest', below.length = k ∧ buffered = below ++ f :: rest ∧
      written = below ++ g :: rest' := by
  obtain ⟨hk, rfl⟩ := List.getElem?_eq_some_iff.mp hf
  obtain ⟨hk', rfl⟩ := List.getElem?_eq_some_iff.mp hg
  have hsplit : ∀ {l : List Frame} (h : k < l.length), l = l.take k ++ l[k] :: l.drop (k + 1) := by
    intro l h
    rw [cons_getElem_drop_succ, take_append_drop]
  have hcontext : IsContext setup (buffered.take k) buffered[k].inlineId := by
    rw [hsplit hk] at hbuffered
    exact hbuffered.of_append
  have hcontext' : IsContext setup (written.take k) written[k].inlineId := by
    rw [hsplit hk'] at hwritten
    exact hwritten.of_append
  rw [← hid] at hcontext'
  refine ⟨buffered.take k, buffered.drop (k + 1), written.drop (k + 1), ?_, hsplit hk, ?_⟩
  · rw [length_take, min_eq_left hk.le]
  · rw [hcontext.unique hcontext']
    exact hsplit hk'

/-- The first loop of `FlushBuffer` finds a common frame, below which the stacks are equal. -/
theorem exists_commonIndex (hk : k < buffered.length) :
    ∃ below f rest g rest', commonIndex buffered written (k + 1) = some below.length ∧
      buffered = below ++ f :: rest ∧ written = below ++ g :: rest' ∧
      f.inlineId = g.inlineId := by
  induction k with
  | zero =>
    -- The root matches.
    obtain ⟨f, rest, rfl, hf⟩ := hbuffered.exists_root
    obtain ⟨g, rest', rfl, hg⟩ := hwritten.exists_root
    refine ⟨[], f, rest, g, rest', ?_, rfl, rfl, hf.trans hg.symm⟩
    simp [commonIndex, hf, hg]
  | succ k ih =>
    rw [commonIndex]
    split_ifs with hcommon
    · obtain ⟨hlt, hids⟩ := hcommon
      rw [getElem?_eq_getElem hk, getElem?_eq_getElem hlt] at hids
      have hid := some.inj hids
      obtain ⟨below, rest, rest', hlen, hb, hw⟩ := hbuffered.exists_common hwritten
        (getElem?_eq_getElem hk) (getElem?_eq_getElem hlt) hid
      exact ⟨below, _, rest, _, rest', by rw [hlen], hb, hw, hid⟩
    · exact ih (Nat.lt_of_succ_lt hk)

end

/-- The loop that pops the written stack down to the common frame. -/
theorem returns_popWritten {fuel : ℕ} (hwritten : s.written = below ++ f :: rest)
    (hfuel : rest.length ≤ fuel) :
    Returns (¬lim.InRange setup) (s.popWritten below.length fuel) fun s' => Writes setup s s' ∧
      s'.written = below ++ [f] := by
  induction fuel generalizing s rest with
  | zero =>
    obtain rfl := length_eq_zero_iff.mp (Nat.le_zero.mp hfuel)
    rw [Builder.popWritten, if_neg (by simp [hwritten])]
    exact ⟨Writes.refl s, hwritten⟩
  | succ fuel ih =>
    rw [Builder.popWritten]
    rcases eq_nil_or_concat rest with rfl | ⟨rest, g, rfl⟩
    · rw [if_neg (by simp [hwritten])]
      exact ⟨Writes.refl s, hwritten⟩
    rw [concat_eq_append] at hwritten hfuel
    rw [length_append] at hfuel
    rw [if_pos (by rw [hwritten]; simp)]
    rw [← cons_append, ← append_assoc] at hwritten
    apply (returns_writePop hwritten (by simp)).bind
    rintro s₁ ⟨hwrites1, hwritten1⟩
    apply (ih hwritten1 (Nat.le_of_succ_le_succ hfuel)).mono
    rintro s' ⟨hwrites, hwritten'⟩
    exact ⟨hwrites1.trans hwrites, hwritten'⟩

/-- The position of the written top frame is brought to that of the buffered frame. -/
theorem returns_flushPosition (hbuffered : s.buffered = below ++ f :: rest)
    (hwritten : s.written = below ++ [g]) (hid : f.inlineId = g.inlineId)
    (hf : f.tokenPos ∈ lim.positions) (hg : g.tokenPos ∈ lim.positions) :
    Returns (¬lim.InRange setup) (s.flushPosition below.length)
      fun s' => Writes setup s s' ∧ s'.written = below ++ [f] := by
  have hf' : s.buffered[below.length]? = some f := by simp [hbuffered]
  have hg' : s.written[below.length]? = some g := by simp [hwritten]
  apply returns_bind_of_eq hf'
  apply returns_bind_of_eq hg'
  apply returns_ite
  · intro _
    apply (returns_writeChangePosition hwritten hf hg).mono
    rintro s' ⟨hwrites, hwritten'⟩
    exact ⟨hwrites, by rw [hwritten', ← hid]⟩
  · intro heq
    refine ⟨Writes.refl s, ?_⟩
    rw [hwritten, show g = f from Frame.ext hid.symm (not_not.mp heq).symm]

/-- Every frame of a stack has a function. -/
theorem IsStack.exists_function (h : IsStack setup stack)
    (htree : IsTree setup) (hf : f ∈ stack) :
    ∃ function, get? setup.inlineIdToFunction f.inlineId = some function := by
  obtain ⟨below, rest, rfl⟩ := append_of_mem hf
  have hrange := h.of_append.inRange htree
  rw [← htree.length_functions] at hrange
  have hlt : f.inlineId.toNat < setup.inlineIdToFunction.length := by omega
  exact ⟨_, by rw [get?, if_neg (by omega), getElem?_eq_getElem hlt]⟩

/-- A stack whose positions are among those of `lim`. -/
structure StackIn (lim : Limits) (setup : Setup F) (stack : List Frame) : Prop where
  isStack : IsStack setup stack
  positions : ∀ f ∈ stack, f.tokenPos ∈ lim.positions

section Flush

variable [DecidableEq F]

variable (htree : IsTree setup) (hbuffered : StackIn lim setup s.buffered)
  (hwritten : StackIn lim setup s.written) (hinitial : kInitialPosition ∈ lim.positions)
  (hknown : Known setup s)
include htree hbuffered hwritten hinitial hknown

omit hwritten in
/-- The third loop of `FlushBuffer` pushes one frame after the other onto the stack that matches. -/
theorem returns_foldlM_pushBuffered (hsplit : s.buffered = below ++ f :: rest)
    (hwritten : s.written = below ++ [g]) (hid : f.inlineId = g.inlineId)
    (hg : g.tokenPos ∈ lim.positions) :
    Returns (¬lim.InRange setup)
      ((List.range' (below.length + 1) rest.length).foldlM (Builder.pushBuffered setup) s)
      fun s' => Writes setup s s' ∧ ∃ below f g, s.buffered = below ++ [f] ∧
        s'.written = below ++ [g] ∧ f.inlineId = g.inlineId ∧ g.tokenPos ∈ lim.positions := by
  let inv : List ℕ → Builder F → Prop := fun indices s' => Writes setup s s' ∧
    ∃ below f rest g, s.buffered = below ++ f :: rest ∧ s'.written = below ++ [g] ∧
      f.inlineId = g.inlineId ∧ g.tokenPos ∈ lim.positions ∧
      indices = range' (below.length + 1) rest.length
  have hinit : inv (range' (below.length + 1) rest.length) s :=
    ⟨Writes.refl s, below, f, rest, g, hsplit, hwritten, hid, hg, rfl⟩
  apply (returns_foldlM inv hinit ?_).mono
  · rintro s' ⟨hwrites, below, f, rest, g, hsplit, hwritten, hid, hg, hindices⟩
    obtain rfl : rest = [] := length_eq_zero_iff.mp (by simpa using hindices.symm)
    exact ⟨hwrites, below, f, g, hsplit, hwritten, hid, hg⟩
  rintro j indices s₁ ⟨hwrites, below, f, rest, g, hsplit, hwritten, hid, hg, hindices⟩
  rcases rest with _ | ⟨h, rest⟩
  · cases hindices
  obtain ⟨rfl, rfl⟩ := hindices
  have hf := hbuffered.positions f (by simp [hsplit])
  have hsplit1 : s₁.buffered = below ++ f :: h :: rest := by rw [hwrites.buffered, hsplit]
  apply (returns_flushPosition hsplit1 hwritten hid hf hg).bind
  rintro s₂ ⟨hwrites2, hwritten2⟩
  have hwrites' := hwrites.trans hwrites2
  have hh : s₂.buffered[below.length + 1]? = some h := by
    rw [hwrites'.buffered, hsplit]
    simp
  obtain ⟨function, hfunction⟩ := hbuffered.isStack.exists_function htree
    (show h ∈ s.buffered by simp [hsplit])
  apply returns_bind_of_eq hh
  apply (returns_writePush (hwrites'.known hknown) hfunction).mono
  rintro s₃ ⟨hwrites3, hwritten3⟩
  refine ⟨hwrites'.trans hwrites3, below ++ [f], h, rest, ⟨h.inlineId, kInitialPosition⟩, ?_, ?_,
    rfl, hinitial, ?_⟩
  · rw [hsplit, append_assoc, singleton_append]
  · rw [hwritten3, hwritten2]
  · rw [length_append, length_singleton]

/-- **`FlushBuffer`, the stack.** The operations lead to the buffered stack. -/
theorem returns_flushStack {post : Builder F → Prop}
    (hadvance : ∀ s', Writes setup s s' → s'.written = s.buffered →
      Returns (¬lim.InRange setup) s'.flushPcOffset post) :
    Returns (¬lim.InRange setup) (s.flushBuffer setup) post := by
  obtain ⟨bottom, rest₀, hroot, -⟩ := hbuffered.isStack.exists_root
  obtain ⟨k, hk⟩ : ∃ k, s.buffered.length = k + 1 := ⟨rest₀.length, by rw [hroot]; rfl⟩
  obtain ⟨below, f, rest, g, rest', hcommon, hsplit, hsplit', hid⟩ :=
    exists_commonIndex hbuffered.isStack hwritten.isStack (show k < s.buffered.length by omega)
  rw [← hk] at hcommon
  apply returns_bind_of_eq hcommon
  have hfuel : rest'.length ≤ s.written.length := by
    rw [hsplit', length_append, length_cons]
    omega
  apply (returns_popWritten hsplit' hfuel).bind
  rintro s₁ ⟨hwrites1, hwritten1⟩
  have hbuffered1 : StackIn lim setup s₁.buffered := by rwa [hwrites1.buffered]
  have hsplit1 : s₁.buffered = below ++ f :: rest := by rw [hwrites1.buffered, hsplit]
  have hlength : s₁.buffered.length - (below.length + 1) = rest.length := by
    rw [hsplit1, length_append, length_cons]
    omega
  rw [hlength]
  apply (returns_foldlM_pushBuffered htree hbuffered1 hinitial (hwrites1.known hknown) hsplit1
    hwritten1 hid (hwritten.positions g (by simp [hsplit']))).bind
  rintro s₂ ⟨hwrites2, below₂, f₂, g₂, hsplit2, hwritten2, hid2, hg2⟩
  have hbuffered2 : s₂.buffered = below₂ ++ [f₂] := by rw [hwrites2.buffered, hsplit2]
  have htop : s₂.buffered.length - 1 = below₂.length := by simp [hbuffered2]
  have hf2 := hbuffered1.positions f₂ (by simp [hsplit2])
  rw [htop]
  apply (returns_flushPosition hbuffered2 hwritten2 hid2 hf2 hg2).bind
  rintro s₃ ⟨hwrites3, hwritten3⟩
  apply hadvance s₃ ((hwrites1.trans hwrites2).trans hwrites3)
  rw [hwritten3, ← hsplit2, hwrites1.buffered]

end Flush

end DartVm.CodeSourceMap
