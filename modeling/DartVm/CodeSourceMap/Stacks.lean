import DartVm.CodeSourceMap.Reading
import DartVm.Library.Postcondition

/-! # Stacks of inlined functions

An inline id determines the frames below it: those of its caller, at the position of the call.
`StartInliningInterval` keeps the buffered stack of this form, which is what `FlushBuffer` relies on
when it looks for the top-most common id.

* `IsContext`, `IsTree`: the frames below an inline id, and how ids are made.
* `exists_switchTo`: `StartInliningInterval` switches to the stack of a function. -/

namespace DartVm.CodeSourceMap

open DataStream Postcondition List Builder Option

variable {F : Type} {setup : Setup F} {s : Builder F} {below below' : List Frame} {id id' : ℤ}
  {pos : TokenPosition} {stack : List Frame} {parent : ℤ} {ids : List ℤ} {abort : Prop} {fuel : ℕ}
  {rest : List Frame} {f : Frame}

/-! ## The frames below an inline id -/

/-- **Context** of an inline id: the frames of its callers. -/
inductive IsContext (setup : Setup F) : List Frame → ℤ → Prop
  | root : IsContext setup [] 0
  | call {below : List Frame} {caller id : ℤ} {pos : TokenPosition}
      (h : IsContext setup below caller) (hid : 0 < id)
      (hcaller : get? setup.callerInlineId id = some caller)
      (hpos : get? setup.inlineIdToTokenPos (id - 1) = some pos) :
      IsContext setup (below ++ [⟨caller, pos⟩]) id

/-- **Inlining tree.** Every inline id is reached from the root by calls. -/
structure IsTree (setup : Setup F) : Prop where
  nonempty : 0 < setup.callerInlineId.length
  exists_context : ∀ id : ℤ, 0 ≤ id → id < setup.callerInlineId.length → ∃ below,
    IsContext setup below id
  length_functions : setup.inlineIdToFunction.length = setup.callerInlineId.length

/-- The callers of an interval are determined. -/
theorem IsContext.unique (h : IsContext setup below id) (h' : IsContext setup below' id) :
    below = below' := by
  induction h generalizing below' with
  | root =>
    cases h' with
    | root => rfl
    | call _ hid => exact absurd hid (lt_irrefl 0)
  | call hbelow hid hcaller hpos ih =>
    cases h' with
    | root => exact absurd hid (lt_irrefl 0)
    | call hbelow' _ hcaller' hpos' =>
      cases (hcaller.symm.trans hcaller')
      cases (hpos.symm.trans hpos')
      rw [ih hbelow']

/-- A frame inside a context has its own context below it. -/
theorem IsContext.of_append
    (h : IsContext setup (below ++ f :: rest) id) : IsContext setup below f.inlineId := by
  generalize hstack : below ++ f :: rest = stack at h
  induction h generalizing rest with
  | root => exact absurd hstack (by simp)
  | @call below₁ caller id pos hbelow hid hcaller hpos ih =>
    rcases eq_nil_or_concat rest with rfl | ⟨rest, g, rfl⟩
    · obtain ⟨rfl, hf⟩ := append_inj' hstack rfl
      obtain rfl := List.singleton_inj.mp hf
      exact hbelow
    · rw [concat_eq_append, ← cons_append, ← append_assoc] at hstack
      exact ih (append_inj' hstack rfl).1

/-- A stack: the context of the top frame, and the top frame. -/
def IsStack (setup : Setup F) (stack : List Frame) : Prop :=
  ∃ below top, stack = below ++ [top] ∧ IsContext setup below top.inlineId

/-- A frame inside a stack has its own context below it. -/
theorem IsStack.of_append
    (h : IsStack setup (below ++ f :: rest)) : IsContext setup below f.inlineId := by
  obtain ⟨below₁, top, hstack, hcontext⟩ := h
  rcases eq_nil_or_concat rest with rfl | ⟨rest, g, rfl⟩
  · obtain ⟨rfl, hf⟩ := append_inj' hstack rfl
    obtain rfl := List.singleton_inj.mp hf
    exact hcontext
  · rw [concat_eq_append, ← cons_append, ← append_assoc] at hstack
    rw [← (append_inj' hstack rfl).1] at hcontext
    exact hcontext.of_append

section

variable (htree : IsTree setup) (h : IsContext setup below id)
include htree h

omit htree in
/-- At the bottom is the root. -/
theorem IsContext.head_inlineId (f : Frame) (hf : f.inlineId = id) :
    ∃ bottom rest, below ++ [f] = bottom :: rest ∧ bottom.inlineId = 0 := by
  induction h generalizing f with
  | root => exact ⟨f, [], rfl, hf⟩
  | @call below caller id pos _ _ _ _ ih =>
    obtain ⟨bottom, rest, hstack, hbottom⟩ := ih ⟨caller, pos⟩ rfl
    exact ⟨bottom, rest ++ [f], by rw [hstack]; rfl, hbottom⟩

/-- Intervals with a context are in the table. -/
theorem IsContext.inRange : 0 ≤ id ∧ id < setup.callerInlineId.length := by
  cases h with
  | root => exact ⟨le_refl 0, by exact_mod_cast htree.nonempty⟩
  | call _ hid hcaller _ =>
    rw [get?, if_neg (by omega)] at hcaller
    have hlt := (List.getElem?_eq_some_iff.mp hcaller).1
    omega

omit htree in
/-- No interval calls itself. -/
theorem IsContext.nodup : (below.map Frame.inlineId ++ [id]).Nodup := by
  induction h with
  | root => simp
  | @call below caller id pos hbelow hid hcaller hpos ih =>
    have hcontext := IsContext.call hbelow hid hcaller hpos
    rw [map_append]
    apply ih.append (by simp)
    rw [disjoint_singleton]
    intro hmem
    -- Otherwise, the id would have a shorter context too.
    obtain ⟨f, hf, rfl⟩ : ∃ f ∈ below ++ [⟨caller, pos⟩], f.inlineId = id := by
      rw [← List.mem_map, map_append]
      exact hmem
    obtain ⟨below₁, rest, hsplit⟩ := append_of_mem hf
    rw [hsplit] at hcontext
    have hshort := congrArg List.length (hcontext.of_append.unique hcontext)
    simp at hshort

theorem IsContext.length_lt : below.length < setup.callerInlineId.length := by
  have hsubset : below.map Frame.inlineId ++ [id] ⊆
      (List.range setup.callerInlineId.length).map (Nat.cast : ℕ → ℤ) := by
    intro x hx
    have hrange : 0 ≤ x ∧ x < setup.callerInlineId.length := by
      rcases mem_append.mp hx with hx | hx
      · obtain ⟨f, hf, rfl⟩ := List.mem_map.mp hx
        obtain ⟨below₁, rest, rfl⟩ := append_of_mem hf
        exact h.of_append.inRange htree
      · rw [mem_singleton.mp hx]
        exact h.inRange htree
    have hlt : x.toNat < setup.callerInlineId.length := by omega
    exact List.mem_map.mpr ⟨x.toNat, mem_range.mpr hlt, by omega⟩
  have hle := (h.nodup.subperm hsubset).length_le
  rwa [length_append, length_map, length_map, length_range] at hle

end

/-! ## Switching to another function -/

/-- The ids from `id` up to the one below `parent`. -/
inductive Path (setup : Setup F) (parent : ℤ) : List ℤ → ℤ → Prop
  | refl : Path setup parent [] parent
  | call {ids : List ℤ} {caller id : ℤ} {pos : TokenPosition} (h : Path setup parent ids caller)
      (hid : 0 < id) (hcaller : get? setup.callerInlineId id = some caller)
      (hpos : get? setup.inlineIdToTokenPos (id - 1) = some pos) : Path setup parent (id :: ids) id

/-- The first loop of `StartInliningInterval` ends at a caller on the stack. -/
theorem exists_commonParent (h : IsContext setup below id) (hroot : s.isOnBufferedStack 0)
    (hfuel : below.length ≤ fuel) :
    ∃ parent ids, s.commonParent setup fuel id = some parent ∧ s.isOnBufferedStack parent ∧
      Path setup parent ids id ∧ parent ∉ ids ∧ ids.length ≤ below.length := by
  induction h generalizing fuel with
  | root =>
    refine ⟨0, [], ?_, hroot, .refl, by simp, by simp⟩
    cases fuel <;> rw [commonParent, if_pos hroot]
  | @call below caller id pos hbelow hid hcaller hpos ih =>
    rw [length_append, length_singleton] at hfuel ⊢
    obtain ⟨fuel, rfl⟩ : ∃ n, fuel = n + 1 := ⟨fuel - 1, by omega⟩
    rw [commonParent]
    split_ifs with hstack
    · exact ⟨id, [], rfl, hstack, .refl, by simp, by simp⟩
    obtain ⟨parent, ids, hparent, hon, hpath, hnot, hlen⟩ := ih (show below.length ≤ fuel by omega)
    refine ⟨parent, id :: ids, ?_, hon, hpath.call hid hcaller hpos, ?_, by simpa using hlen⟩
    · rw [hcaller]
      exact hparent
    · rintro (_ | ⟨_, hmem⟩)
      · exact hstack hon
      · exact hnot hmem

/-- The loop that collects the intervals to push follows the path up to the parent. -/
theorem Path.toPush_eq (h : Path setup parent ids id) (hnot : parent ∉ ids)
    (hfuel : ids.length ≤ fuel) : toPush setup parent fuel id = some ids := by
  induction h generalizing fuel with
  | refl => cases fuel <;> simp [toPush]
  | @call ids caller id pos _ hid hcaller hpos ih =>
    rw [mem_cons, not_or] at hnot
    rw [length_cons] at hfuel
    obtain ⟨fuel, rfl⟩ : ∃ n, fuel = n + 1 := ⟨fuel - 1, by omega⟩
    rw [toPush, if_pos (Ne.symm hnot.1), hcaller, bind_eq_bind, bind_some,
      ih hnot.2 (by omega)]
    rfl

/-- The loop that pops the buffered stack stops at the parent. -/
theorem exists_popBuffered (hstack : s.isOnBufferedStack parent)
    (hfuel : s.buffered.length ≤ fuel) :
    ∃ below f rest, s.buffered = below ++ f :: rest ∧ f.inlineId = parent ∧
      popBuffered parent fuel s = some { s with buffered := below ++ [f] } := by
  induction fuel generalizing s with
  | zero =>
    rw [isOnBufferedStack, length_eq_zero_iff.mp (Nat.le_zero.mp hfuel)] at hstack
    cases hstack
  | succ fuel ih =>
    rw [popBuffered]
    rcases eq_nil_or_concat s.buffered with hnil | ⟨init, last, hconcat⟩
    · rw [isOnBufferedStack, hnil] at hstack
      cases hstack
    rw [concat_eq_append] at hconcat
    rw [hconcat, getLast?_concat, bind_eq_bind, bind_some]
    split_ifs with hne
    · -- The parent is further down.
      have hstack' : s.bufferPop.isOnBufferedStack parent := by
        rw [isOnBufferedStack, hconcat] at hstack
        rw [isOnBufferedStack, bufferPop, hconcat]
        simpa [hne] using hstack
      have hlen : s.bufferPop.buffered.length ≤ fuel := by
        rw [bufferPop, length_dropLast]
        omega
      obtain ⟨below, f, rest, hsplit, hf, hpop⟩ := ih hstack' hlen
      refine ⟨below, f, rest ++ [last], ?_, hf, hpop⟩
      have hinit : init = below ++ f :: rest := by
        rw [← hsplit, bufferPop, hconcat, dropLast_concat]
      rw [hinit, append_assoc, cons_append]
    · refine ⟨init, last, [], rfl, not_not.mp hne, ?_⟩
      rw [← hconcat]

/-- The loop that pushes the collected intervals ends with the context of the last one. -/
theorem Path.exists_foldlM_pushCallee (h : Path setup parent ids id)
    (hbelow : IsContext setup below parent) {p : TokenPosition}
    (hbuffered : s.buffered = below ++ [⟨parent, p⟩]) :
    ∃ below' p', ids.reverse.foldlM (pushCallee setup) s =
        some { s with buffered := below' ++ [⟨id, p'⟩] } ∧
      IsContext setup below' id ∧ (p' = p ∨ p' = kInitialPosition) := by
  induction h with
  | refl => exact ⟨below, p, by rw [← hbuffered]; rfl, hbelow, .inl rfl⟩
  | @call ids caller id pos _ hid hcaller hpos ih =>
    obtain ⟨below', p', hfold, hcontext, -⟩ := ih
    refine ⟨below' ++ [⟨caller, pos⟩], kInitialPosition, ?_, hcontext.call hid hcaller hpos,
      .inr rfl⟩
    rw [reverse_cons, foldlM_append, hfold, bind_eq_bind, bind_some,
      foldlM_cons, pushCallee, hpos]
    simp [bufferChangePosition, setTop, bufferPush]

/-- **`StartInliningInterval`** switches to the stack of the function. -/
theorem exists_switchTo (htree : IsTree setup) (hstack : IsStack setup s.buffered) (hid : 0 ≤ id)
    (hlt : id < setup.callerInlineId.length) :
    ∃ below top, s.switchTo setup id = some { s with buffered := below ++ [top] } ∧
      IsContext setup below top.inlineId ∧
      ((∃ f ∈ s.buffered, top.tokenPos = f.tokenPos) ∨ top.tokenPos = kInitialPosition) := by
  obtain ⟨below, hcontext⟩ := htree.exists_context id hid hlt
  have hroot : s.isOnBufferedStack 0 := by
    obtain ⟨below₁, top, hbuffered, hcontext1⟩ := hstack
    obtain ⟨bottom, rest, hsplit, hbottom⟩ := hcontext1.head_inlineId top rfl
    rw [isOnBufferedStack, hbuffered, hsplit]
    simp [hbottom]
  have hdepth := hcontext.length_lt htree
  obtain ⟨parent, ids, hparent, hon, hpath, hnot, hlen⟩ :=
    exists_commonParent hcontext hroot hdepth.le
  obtain ⟨below₁, ⟨_, p⟩, rest, hsplit, rfl, hpop⟩ := exists_popBuffered hon (le_refl _)
  rw [hsplit] at hstack
  obtain ⟨below', p', hpush, hcontext', hp'⟩ := hpath.exists_foldlM_pushCallee hstack.of_append
    (s := { s with buffered := below₁ ++ [_] }) rfl
  refine ⟨below', ⟨id, p'⟩, ?_, hcontext', ?_⟩
  · rw [switchTo, hparent, bind_eq_bind, bind_some, hpop,
      bind_eq_bind, hpath.toPush_eq hnot (hlen.trans hdepth.le)]
    exact hpush
  · apply hp'.imp_left
    intro heq
    exact ⟨_, by rw [hsplit]; exact mem_append_right _ (mem_cons_self ..), heq⟩

end DartVm.CodeSourceMap
