import Mathlib.Data.List.Infix

/-! # Removing dot segments from a path

`_Uri._removeDotSegments` (`uri.dart`) folds over the segments of a path, with a flag for a slash at
the end; the algorithm of RFC 3986 moves the path, prefix by prefix, from an input to an output
buffer.  Both do the same to the segments behind the first slash: `push` each on the output, and end
with a slash where the last one is a dot segment.  A path is the list of its code units.

* `foldl_removeStep`: the loop of the code, on segments.
* `rfc_slashed`: the loop of the RFC, on segments.
* `removeDotSegments_eq_rfc`: both give the same path, which has no dot segments. -/

namespace DartVm.Uri

open List

/-- The code unit `_SLASH`. -/
@[match_pattern] abbrev slash : ℕ := 0x2F

/-- The code unit `_DOT`. -/
@[match_pattern] abbrev dot : ℕ := 0x2E

/-- The text between two slashes of a path. -/
abbrev Segment := List ℕ

/-- `_mayContainDotSegments`: a guess at whether a path contains a `..` or `.` segment. -/
def mayContainDotSegments (path : List ℕ) : Bool :=
  path.head? = some dot || [slash, dot] <:+: path

/-- The loop body of `_removeDotSegments`, on `output` and `appendSlash`. -/
def removeStep (s : List Segment × Bool) (segment : Segment) : List Segment × Bool :=
  if segment = [dot, dot] then
    (if s.1 = [] then s.1 else if s.1.dropLast = [] then [[]] else s.1.dropLast, true)
  else if segment = [dot] then (s.1, true)
  else (s.1 ++ [segment], false)

/-- `_removeDotSegments`.  Its assertion holds, as an empty path passes the guess. -/
def removeDotSegments (path : List ℕ) : List ℕ :=
  if !mayContainDotSegments path then path
  else
    let (output, appendSlash) := (path.splitOn slash).foldl removeStep ([], false)
    [slash].intercalate (if appendSlash then output ++ [[]] else output)

/-! ## RFC 3986 -/

/-- Removes the last segment and its preceding slash from the output buffer. -/
def removeLastSegment (output : List ℕ) : List ℕ :=
  ((output.reverse.dropWhile (· ≠ slash)).drop 1).reverse

/-- **`remove_dot_segments`** of RFC 3986, with its steps A to E. -/
def rfcRemoveDotSegments (input output : List ℕ) : List ℕ :=
  match input with
  -- A
  | dot :: dot :: slash :: rest => rfcRemoveDotSegments rest output
  | dot :: slash :: rest => rfcRemoveDotSegments rest output
  -- B
  | slash :: dot :: slash :: rest => rfcRemoveDotSegments (slash :: rest) output
  | [slash, dot] => rfcRemoveDotSegments [slash] output
  -- C
  | slash :: dot :: dot :: slash :: rest =>
    rfcRemoveDotSegments (slash :: rest) (removeLastSegment output)
  | [slash, dot, dot] => rfcRemoveDotSegments [slash] (removeLastSegment output)
  -- D
  | [dot] | [dot, dot] | [] => output
  -- E
  | c :: rest =>
    rfcRemoveDotSegments (rest.dropWhile (· ≠ slash)) (output ++ c :: rest.takeWhile (· ≠ slash))
termination_by input.length
decreasing_by
  all_goals simp only [length_cons, length_nil]
  all_goals try have := (dropWhile_sublist (· ≠ slash) (l := rest)).length_le
  all_goals omega

/-! ## Segments -/

variable {segment : Segment} {segments out : List Segment} {x o : List ℕ}

/-- The segments `.` and `..`. -/
def isDot (segment : Segment) : Bool := segment = [dot] || segment = [dot, dot]

/-- What both algorithms do with a segment behind the first slash. -/
def push (out : List Segment) (segment : Segment) : List Segment :=
  if segment = [dot, dot] then out.dropLast else if segment = [dot] then out else out ++ [segment]

/-- The segments of the result. -/
def cleaned (out : List Segment) : List Segment → List Segment
  | [] => out
  | [segment] => push out segment ++ if isDot segment then [[]] else []
  | segment :: next :: segments => cleaned (push out segment) (next :: segments)

/-- The path of the segments behind the first slash. -/
abbrev slashed (segments : List Segment) : List ℕ := segments.flatMap (slash :: ·)

/-- Joining the segments of a path that starts with a slash. -/
theorem intercalate_nil_cons (l : List Segment) : [slash].intercalate ([] :: l) = slashed l := by
  induction l with
  | nil => rfl
  | cons g l ih =>
    rw [intercalate_cons_cons, slashed, flatMap_cons, ← slashed, ← ih]
    cases l <;> simp [intercalate_cons_cons]

/-- Behind the first slash a step of the loop is a `push`; a `..` keeps the empty segment in front
of this slash. -/
theorem removeStep_cons (b : Bool) :
    removeStep ([] :: out, b) segment = ([] :: push out segment, isDot segment) := by
  unfold removeStep push isDot
  split_ifs with h1 h2 h3 <;> cases out <;> simp_all

/-- **The loop of `_removeDotSegments`**, by induction over the segments. -/
theorem foldl_removeStep (out : List Segment) (b : Bool) (h : segments ≠ []) :
    (let r := segments.foldl removeStep ([] :: out, b)
      if r.2 then r.1 ++ [[]] else r.1) = [] :: cleaned out segments := by
  induction out, segments using cleaned.induct generalizing b with
  | case1 out => exact absurd rfl h
  | case2 out segment =>
    simp only [foldl_cons, foldl_nil, removeStep_cons, cleaned]
    split_ifs <;> simp
  | case3 out segment next segments ih =>
    rw [foldl_cons, removeStep_cons]
    exact ih _ (cons_ne_nil _ _)

/-- A segment has no slash. -/
theorem forall_ne_slash (h : slash ∉ segment) : ∀ c ∈ segment, (decide (c ≠ slash)) = true := by
  rintro c hc
  exact decide_eq_true fun heq => h (heq ▸ hc)

/-- Removing the last segment from the output buffer. -/
theorem removeLastSegment_slashed (h : ∀ g ∈ out, slash ∉ g) :
    removeLastSegment (slashed out) = slashed out.dropLast := by
  rcases eq_nil_or_concat' out with rfl | ⟨out, g, rfl⟩
  · rfl
  · have hall := forall_ne_slash (show slash ∉ g.reverse by simpa using h g (by simp))
    rw [dropLast_concat, slashed, flatMap_append, flatMap_singleton, removeLastSegment,
      reverse_append, reverse_cons, append_assoc, dropWhile_append_of_pos hall]
    simp

/-- Step E: what is no dot segment is moved to the output. -/
theorem rfc_segment (h : isDot (x.takeWhile (· ≠ slash)) = false) :
    rfcRemoveDotSegments (slash :: x) o =
      rfcRemoveDotSegments (x.dropWhile (· ≠ slash)) (o ++ slash :: x.takeWhile (· ≠ slash)) := by
  rw [rfcRemoveDotSegments]
  all_goals
    intros
    subst_vars
    simp_all [isDot, slash, dot]

/-- A segment that is no dot segment is added. -/
theorem push_of_not_isDot (h : isDot segment = false) : push out segment = out ++ [segment] := by
  have hne : segment ≠ [dot, dot] ∧ segment ≠ [dot] := by simpa [isDot, and_comm] using h
  rw [push, if_neg hne.1, if_neg hne.2]

/-- A property of the output and of the segments that are no dot segments is kept. -/
theorem forall_push {P : Segment → Prop} (hout : ∀ g ∈ out, P g)
    (h : isDot segment = false → P segment) : ∀ g ∈ push out segment, P g := by
  intro g hg
  unfold push at hg
  split_ifs at hg with h1 h2
  · exact hout g (mem_of_mem_dropLast hg)
  · exact hout g hg
  · rcases mem_append.mp hg with hg | hg
    · exact hout g hg
    · exact mem_singleton.mp hg ▸ h (by simp [isDot, h1, h2])

/-- A property of the output and of the segments that are no dot segments holds for the result, if
it holds for the empty segment at its end. -/
theorem forall_cleaned {P : Segment → Prop} (hnil : P []) (hout : ∀ g ∈ out, P g)
    (h : ∀ g ∈ segments, isDot g = false → P g) : ∀ g ∈ cleaned out segments, P g := by
  induction out, segments using cleaned.induct with
  | case1 out => exact hout
  | case2 out segment =>
    refine forall_mem_append.mpr ⟨forall_push hout (h segment (by simp)), ?_⟩
    split_ifs <;> simp [hnil]
  | case3 out segment next segments ih =>
    rw [forall_mem_cons] at h
    exact ih (forall_push hout h.1) h.2

/-- Segments without dot segments are left alone. -/
theorem cleaned_of_noDots (h : ∀ g ∈ segments, isDot g = false) :
    cleaned out segments = out ++ segments := by
  induction out, segments using cleaned.induct with
  | case1 out => simp [cleaned]
  | case2 out segment =>
    have hdot := h segment (by simp)
    simp [cleaned, push_of_not_isDot hdot, hdot]
  | case3 out segment next segments ih =>
    rw [forall_mem_cons] at h
    rw [cleaned, ih h.2, push_of_not_isDot h.1, append_assoc]
    rfl

/-- One segment of the RFC's loop; a dot segment at the end leaves a slash. -/
theorem rfc_cons (hg : slash ∉ segment) (hout : ∀ g ∈ out, slash ∉ g) (tail : List Segment) :
    rfcRemoveDotSegments (slashed (segment :: tail)) (slashed out) =
      rfcRemoveDotSegments (slashed (if isDot segment && tail.isEmpty then [[]] else tail))
        (slashed (push out segment)) := by
  cases hdot : isDot segment with
  | false =>
    have hne : segment ≠ [dot, dot] ∧ segment ≠ [dot] := by simpa [isDot, and_comm] using hdot
    have htake : (segment ++ slashed tail).takeWhile (· ≠ slash) = segment := by
      rw [takeWhile_append_of_pos (forall_ne_slash hg)]
      cases tail <;> simp
    have hdrop : (segment ++ slashed tail).dropWhile (· ≠ slash) = slashed tail := by
      rw [dropWhile_append_of_pos (forall_ne_slash hg)]
      cases tail <;> simp
    rw [slashed, flatMap_cons, cons_append, rfc_segment (by rwa [htake]), htake, hdrop, push,
      if_neg hne.1, if_neg hne.2]
    simp
  | true =>
    have hcases : segment = [dot] ∨ segment = [dot, dot] := by simpa [isDot] using hdot
    rcases hcases with rfl | rfl <;> cases tail <;>
      simp [push, rfcRemoveDotSegments, removeLastSegment_slashed hout]

/-- **The loop of the RFC**, on segments without slashes. -/
theorem rfc_slashed (hs : ∀ g ∈ segments, slash ∉ g) (hout : ∀ g ∈ out, slash ∉ g) :
    rfcRemoveDotSegments (slashed segments) (slashed out) = slashed (cleaned out segments) := by
  induction out, segments using cleaned.induct with
  | case1 out =>
    rw [slashed, flatMap_nil, rfcRemoveDotSegments, cleaned]
  | case2 out segment =>
    rw [rfc_cons (hs segment (by simp)) hout, cleaned]
    cases isDot segment <;> simp [rfcRemoveDotSegments]
  | case3 out segment next segments ih =>
    rw [forall_mem_cons] at hs
    rw [rfc_cons hs.1 hout, isEmpty_cons, Bool.and_false, if_neg Bool.false_ne_true, cleaned]
    exact ih hs.2 (forall_push hout fun _ => hs.1)

/-- Splitting a path leaves no slashes. -/
theorem slash_notMem_splitOn (p : List ℕ) : ∀ g ∈ p.splitOn slash, slash ∉ g := by
  induction p with
  | nil => simp
  | cons c p ih =>
    rw [splitOn_cons_eq_if_modifyHead]
    split_ifs with hc
    · simpa using ih
    · obtain ⟨g, gs, hg⟩ := exists_cons_of_ne_nil (splitOn_ne_nil slash p)
      rw [hg, forall_mem_cons] at ih
      rw [hg, modifyHead_cons, forall_mem_cons, mem_cons, not_or]
      exact ⟨⟨fun heq => hc (beq_iff_eq.mpr heq.symm), ih.1⟩, ih.2⟩

/-- The segments of a path are read back. -/
theorem splitOn_slashed (hs : ∀ g ∈ segments, slash ∉ g) :
    (slashed segments).splitOn slash = [] :: segments := by
  rw [← intercalate_nil_cons]
  exact splitOn_intercalate slash (forall_mem_cons.mpr ⟨not_mem_nil, hs⟩) (cons_ne_nil _ _)

/-- The guess is right about every path with a dot segment. -/
theorem mayContainDotSegments_of_isDot (hg : segment ∈ segments) (hdot : isDot segment) :
    mayContainDotSegments (slashed segments) := by
  have hfix : slash :: segment <:+: slashed segments := by
    obtain ⟨l, r, rfl⟩ := append_of_mem hg
    exact ⟨slashed l, slashed r, by simp⟩
  have hcases : segment = [dot] ∨ segment = [dot, dot] := by simpa [isDot] using hdot
  have hdots : [slash, dot] <+: slash :: segment := by
    rcases hcases with rfl | rfl
    · exact prefix_rfl
    · exact prefix_append [slash, dot] [dot]
  simp [mayContainDotSegments, hdots.isInfix.trans hfix]

/-- **The code** on a path that starts with a slash, whatever its guess. -/
theorem removeDotSegments_slashed (hs : ∀ g ∈ segments, slash ∉ g) (hne : segments ≠ []) :
    removeDotSegments (slashed segments) = slashed (cleaned [] segments) := by
  cases hmay : mayContainDotSegments (slashed segments) with
  | false =>
    have hdots : ∀ g ∈ segments, isDot g = false := by
      intro g hg
      by_contra hdot
      have := mayContainDotSegments_of_isDot hg (Bool.not_eq_false _ |>.mp hdot)
      simp [hmay] at this
    rw [cleaned_of_noDots hdots, nil_append, removeDotSegments, hmay]
    rfl
  | true =>
    -- The empty segment in front of the first slash is the first output.
    have hfold := foldl_removeStep [] false hne
    have hright := intercalate_nil_cons (cleaned [] segments)
    rw [← hright, ← hfold, removeDotSegments, hmay, splitOn_slashed hs, foldl_cons]
    rfl

/-- A path keeps a segment, as a dot segment at its end leaves an empty one. -/
theorem cleaned_ne_nil (hne : segments ≠ []) : cleaned out segments ≠ [] := by
  induction out, segments using cleaned.induct with
  | case1 out => exact absurd rfl hne
  | case2 out segment =>
    rw [cleaned]
    cases hdot : isDot segment with
    | false => simp [push_of_not_isDot hdot]
    | true => simp
  | case3 out segment next segments ih =>
    rw [cleaned]
    exact ih (cons_ne_nil _ _)

/-- **`_removeDotSegments`** is the algorithm of the RFC on paths that start with a slash; its
result has no dot segments and is left alone by a second application. -/
theorem removeDotSegments_eq_rfc (p : List ℕ) :
    removeDotSegments (slash :: p) = rfcRemoveDotSegments (slash :: p) [] ∧
      (∀ segment ∈ (removeDotSegments (slash :: p)).splitOn slash,
        segment ≠ [dot] ∧ segment ≠ [dot, dot]) ∧
      removeDotSegments (removeDotSegments (slash :: p)) = removeDotSegments (slash :: p) := by
  have hs := slash_notMem_splitOn p
  have hne := splitOn_ne_nil slash p
  have hp : slash :: p = slashed (p.splitOn slash) := by
    obtain ⟨g, gs, hg⟩ := exists_cons_of_ne_nil hne
    rw [← intercalate_nil_cons, hg, intercalate_cons_cons, ← hg, intercalate_splitOn]
    rfl
  have hslash : ∀ g ∈ cleaned [] (p.splitOn slash), slash ∉ g :=
    forall_cleaned not_mem_nil (by simp) fun g hg _ => hs g hg
  have hdots : ∀ g ∈ cleaned [] (p.splitOn slash), isDot g = false :=
    forall_cleaned rfl (by simp) fun _ _ hg => hg
  rw [hp, removeDotSegments_slashed hs hne]
  refine ⟨(rfc_slashed hs (forall_mem_nil _)).symm, ?_, ?_⟩
  · rw [splitOn_slashed hslash, forall_mem_cons]
    exact ⟨by simp, fun g hg => by simpa [isDot] using hdots g hg⟩
  · rw [removeDotSegments_slashed hslash (cleaned_ne_nil hne), cleaned_of_noDots hdots, nil_append]

end DartVm.Uri
