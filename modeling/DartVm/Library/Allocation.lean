import Mathlib.Data.List.Nodup

/-! # Allocation of units

An allocator hands out units of some resource.  Where each step hands out different units that were
free before and are taken after it, and no unit becomes free, a whole run hands out every unit at
most once.

* `HandsOut`: one step of an allocator.
* `HandsOut.append`: steps compose. -/

namespace DartVm.Allocation

variable {σ Unit : Type} {Taken : σ → Unit → Prop} {s s' s'' : σ} {us us' : List Unit}

/-- **A step of an allocator** that hands out units. -/
structure HandsOut (Taken : σ → Unit → Prop) (s : σ) (us : List Unit) (s' : σ) : Prop where
  nodup : us.Nodup
  free : ∀ u ∈ us, ¬Taken s u
  taken : ∀ u ∈ us, Taken s' u
  mono : ∀ u, Taken s u → Taken s' u

theorem handsOut_nil (h : ∀ u, Taken s u → Taken s' u) : HandsOut Taken s [] s' :=
  ⟨List.nodup_nil, by simp, by simp, h⟩

/-- **Steps compose**: what the second step hands out was free after the first. -/
theorem HandsOut.append (h : HandsOut Taken s us s') (h' : HandsOut Taken s' us' s'') :
    HandsOut Taken s (us ++ us') s'' where
  nodup := by
    rw [List.nodup_append']
    exact ⟨h.nodup, h'.nodup, fun u hu hu' => h'.free u hu' (h.taken u hu)⟩
  free u hu := by
    rcases List.mem_append.mp hu with hu | hu
    · exact h.free u hu
    · exact fun htaken => h'.free u hu (h.mono u htaken)
  taken u hu := by
    rcases List.mem_append.mp hu with hu | hu
    · exact h'.mono u (h.taken u hu)
    · exact h'.taken u hu
  mono u hu := h'.mono u (h.mono u hu)

/-- Resources may be given up after an allocation. -/
theorem HandsOut.mono_right (h : HandsOut Taken s us s') (hmono : ∀ u, Taken s' u → Taken s'' u) :
    HandsOut Taken s us s'' :=
  ⟨h.nodup, h.free, fun u hu => hmono u (h.taken u hu), fun u hu => hmono u (h.mono u hu)⟩

/-- Resources may be given up before an allocation. -/
theorem HandsOut.mono_left (hmono : ∀ u, Taken s u → Taken s' u) (h : HandsOut Taken s' us s'') :
    HandsOut Taken s us s'' :=
  (handsOut_nil hmono).append h

end DartVm.Allocation
