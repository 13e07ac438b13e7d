import Mathlib.Data.List.Basic

/-! # Splitting text into lines

`LineSplitter.convert` and the sink for chunked text (`line_splitter.dart`).  However a text is cut
into slices, the sink emits the lines that `convert` finds in the whole text.

* `addSlice_ofScan`: a slice continues the scan of the text before it.
* `lines_eq_convert`: slices give the lines of the whole text.
* `convert_flatMap`: lines are read back. -/

namespace DartVm.LineSplitter

open List

/-- The UTF-16 code units of a string. -/
abbrev Text := List ℕ

/-- `_LF`. -/
def lf : ℕ := 10

/-- `_CR`. -/
def cr : ℕ := 13

/-- The loop that `convert` and `_addLines` share, after the code unit `previousChar`: the lines it
adds, the text from `sliceStart` to the end and the last code unit.  `slice` is the text from
`sliceStart` on that lies behind. -/
def scan (previousChar : ℕ) (slice : Text) : Text → List Text × Text × ℕ
  | [] => ([], slice, previousChar)
  | char :: rest =>
    if char ≠ cr ∧ char ≠ lf then scan char (slice ++ [char]) rest
    else if char ≠ cr ∧ previousChar = cr then scan char [] rest
    else
      let r := scan char [] rest
      (slice :: r.1, r.2)

/-- `LineSplitter.convert`. -/
def convert (data : Text) : List Text :=
  let (lines, slice, _) := scan 0 [] data
  if slice = [] then lines else lines ++ [slice]

/-- `_LineSplitterSink`, with what it has sent on. -/
structure Sink where
  carry : Option Text
  skipLeadingLF : Bool
  output : List Text
  closed : Bool
deriving DecidableEq

namespace Sink

/-- A new sink. -/
def new : Sink := ⟨none, false, [], false⟩

/-- `_addLines`. -/
def addLines (s : Sink) (lines : Text) : Sink :=
  let (added, slice, char) := scan 0 [] lines
  if slice = [] then { s with output := s.output ++ added, skipLeadingLF := char = cr }
  else { s with output := s.output ++ added, carry := some slice }

/-- `close`: what is carried over is the last line. -/
def close (s : Sink) : Sink :=
  { s with output := s.output ++ s.carry.toList, carry := none, closed := true }

/-- `addSlice` of the text between `start` and `end`. -/
def addSlice (s : Sink) (slice : Text) (isLast : Bool) : Sink :=
  if slice = [] then if isLast then s.close else s
  else
    let s' := match s.carry with
      | some carry => { s with carry := none }.addLines (carry ++ slice)
      | none =>
        { s with skipLeadingLF := false }.addLines
          (if s.skipLeadingLF ∧ slice.head? = some lf then slice.tail else slice)
    if isLast then s'.close else s'

end Sink

/-! ## Scanning in parts -/

variable {c c' : ℕ} {slice t u : Text}

/-- Scanning goes on where it stopped. -/
theorem scan_append : scan c slice (t ++ u) =
    let r := scan c slice t
    (r.1 ++ (scan r.2.2 r.2.1 u).1, (scan r.2.2 r.2.1 u).2) := by
  fun_induction scan c slice t with
  | case1 => simp
  | case2 c slice char rest h ih => rw [cons_append, scan, if_pos h, ih]
  | case3 c slice char rest h hlf ih => rw [cons_append, scan, if_neg h, if_pos hlf, ih]
  | case4 c slice char rest h hlf r ih =>
    rw [cons_append, scan, if_neg h, if_neg hlf, ih]
    rfl

/-- The code unit before a text matters only as a carriage return, and only to a line feed. -/
theorem scan_congr (hu : u ≠ []) (h : (c = cr ↔ c' = cr) ∨ u.head? ≠ some lf) :
    scan c slice u = scan c' slice u := by
  obtain ⟨d, u, rfl⟩ := exists_cons_of_ne_nil hu
  by_cases hd : d ≠ cr ∧ d ≠ lf
  · rw [scan, scan, if_pos hd, if_pos hd]
  · have hiff : (d ≠ cr ∧ c = cr) ↔ (d ≠ cr ∧ c' = cr) := by
      refine and_congr_right fun hcr => h.resolve_right fun hlf => hd ⟨hcr, ?_⟩
      simpa using hlf
    rw [scan, scan, if_neg hd, if_neg hd]
    simp only [hiff]

/-- Text without ends of lines. -/
def Plain (t : Text) : Prop := ∀ c ∈ t, c ≠ cr ∧ c ≠ lf

/-- A text without line ends is kept for the next line. -/
theorem scan_plain (h : Plain t) : scan c slice t = ([], slice ++ t, t.getLastD c) := by
  induction t generalizing c slice with
  | nil => simp [scan]
  | cons d t ih =>
    obtain ⟨hd, ht⟩ := forall_mem_cons.mp h
    rw [scan, if_pos hd, ih ht, append_assoc, getLastD_cons]
    rfl

/-- What is left of a text is plain, and does not follow a carriage return. -/
theorem plain_scan (hslice : Plain slice) (hc : slice ≠ [] → c ≠ cr) :
    Plain (scan c slice t).2.1 ∧ ((scan c slice t).2.1 ≠ [] → (scan c slice t).2.2 ≠ cr) := by
  fun_induction scan c slice t with
  | case1 => exact ⟨hslice, hc⟩
  | case2 c slice char rest h ih =>
    refine ih (forall_mem_append.mpr ⟨hslice, ?_⟩) fun _ => h.1
    simpa using h
  | case3 c slice char rest h hlf ih => exact ih nofun nofun
  | case4 c slice char rest h hlf r ih => exact ih nofun nofun

/-! ## Cutting a text -/

/-- The sink after text that was scanned with this result. -/
def Sink.ofScan (r : List Text × Text × ℕ) : Sink where
  carry := if r.2.1 = [] then none else some r.2.1
  skipLeadingLF := r.2.1 = [] ∧ r.2.2 = cr
  output := r.1
  closed := false

/-- `_addLines` on a sink without a carry is one scan. -/
theorem addLines_eq {s : Sink} {lines : Text} (hcarry : s.carry = none)
    (hskip : s.skipLeadingLF = false) (hclosed : s.closed = false) :
    s.addLines lines = .ofScan (s.output ++ (scan 0 [] lines).1, (scan 0 [] lines).2) := by
  obtain ⟨carry, skip, output, closed⟩ := s
  rw [Sink.addLines, Sink.ofScan]
  split_ifs <;> simp_all

/-- **A slice continues the scan** of the text before it. -/
theorem addSlice_ofScan :
    (Sink.ofScan (scan 0 [] t)).addSlice u false = .ofScan (scan 0 [] (t ++ u)) := by
  by_cases hu : u = []
  · rw [Sink.addSlice, if_pos hu, hu, append_nil]
    rfl
  obtain ⟨hplain, hchar⟩ := @plain_scan 0 [] t nofun nofun
  rw [scan_append]
  generalize scan 0 [] t = r at hplain hchar
  obtain ⟨lines, slice, char⟩ := r
  by_cases hslice : slice = []
  · have hstep : (Sink.ofScan (lines, slice, char)).addSlice u false
        = (⟨none, false, lines, false⟩ : Sink).addLines
          (if char = cr ∧ u.head? = some lf then u.tail else u) := by
      simp [Sink.addSlice, Sink.ofScan, hu, hslice]
    rw [hstep, addLines_eq rfl rfl rfl, hslice]
    dsimp only
    -- Only a line feed after a carriage return is not scanned like the rest of the text.
    split_ifs with hlf
    · obtain ⟨d, u', rfl⟩ := exists_cons_of_ne_nil hu
      obtain ⟨rfl, ⟨⟩⟩ := hlf
      have hskip : scan cr [] (lf :: u') = scan lf [] u' := by
        rw [scan, if_neg (by decide), if_pos (by decide)]
      rw [hskip, tail_cons]
      by_cases hu' : u' = []
      · rw [hu']
        rfl
      · rw [@scan_congr 0 lf _ _ hu' (.inl (by decide))]
    · rw [@scan_congr 0 char _ _ hu]
      by_cases hcr : char = cr
      · exact .inr fun h => hlf ⟨hcr, h⟩
      · exact .inl (iff_of_false (by decide) hcr)
  · -- The carry is scanned again, to the same effect.
    have hstep : (Sink.ofScan (lines, slice, char)).addSlice u false
        = (⟨none, false, lines, false⟩ : Sink).addLines (slice ++ u) := by
      simp [Sink.addSlice, Sink.ofScan, hu, hslice]
    have hlast : slice.getLastD 0 ≠ cr := by
      rw [getLastD_eq_getLast?, getLast?_eq_some_getLast hslice]
      exact (hplain _ (getLast_mem hslice)).1
    rw [hstep, addLines_eq rfl rfl rfl, scan_append, scan_plain hplain]
    simp only [nil_append]
    rw [scan_congr hu (.inl (iff_of_false hlast (hchar hslice)))]

/-- The last slice closes the sink. -/
theorem addSlice_isLast (s : Sink) : s.addSlice u true = (s.addSlice u false).close := by
  by_cases hu : u = [] <;> simp [Sink.addSlice, hu]

/-- Closing after a scan gives the lines of the text. -/
theorem close_ofScan : (Sink.ofScan (scan 0 [] t)).close.output = convert t := by
  simp only [Sink.close, Sink.ofScan, convert]
  split_ifs <;> simp

/-- **Chunked splitting gives the lines of the whole text**, whether the sink is closed or the last
slice ends the text. -/
theorem lines_eq_convert (slices : List Text) (last : Text) :
    let s := slices.foldl (·.addSlice · false) Sink.new
    s.close.output = convert slices.flatten ∧
      (s.addSlice last true).output = convert (slices.flatten ++ last) := by
  have hfold : ∀ t, slices.foldl (·.addSlice · false) (Sink.ofScan (scan 0 [] t))
      = .ofScan (scan 0 [] (t ++ slices.flatten)) := by
    induction slices with
    | nil => simp
    | cons u slices ih =>
      intro t
      rw [foldl_cons, addSlice_ofScan, ih, append_assoc, flatten_cons]
  have hnew := hfold []
  dsimp only
  rw [show Sink.new = .ofScan (scan 0 [] []) from rfl, hnew, addSlice_isLast, addSlice_ofScan]
  exact ⟨close_ofScan, close_ofScan⟩

/-! ## Ends of lines -/

variable {e : Text} {lines : List Text}

/-- An end of line that completes no other one adds the slice before it. -/
theorem scan_end (he : e ∈ [[lf], [cr], [cr, lf]]) (hc : c = cr → e ≠ [lf]) : ∃ d,
    (d = cr → e ≠ [lf]) ∧ scan c slice (e ++ t) = (slice :: (scan d [] t).1, (scan d [] t).2) := by
  simp only [mem_cons, not_mem_nil, or_false] at he
  rcases he with rfl | rfl | rfl
  · exact ⟨lf, by decide, by simp_all [scan, lf]⟩
  · exact ⟨cr, by decide, by simp [scan]⟩
  · exact ⟨lf, by decide, by simp [scan, lf, cr]⟩

/-- Lines with their ends are found, whichever end is used. -/
theorem scan_lines (he : e ∈ [[lf], [cr], [cr, lf]]) (hc : c = cr → e ≠ [lf])
    (hlines : ∀ line ∈ lines, Plain line) :
    ∃ d, scan c [] (lines.flatMap (· ++ e)) = (lines, [], d) := by
  induction lines generalizing c with
  | nil => exact ⟨c, rfl⟩
  | cons line lines ih =>
    obtain ⟨hline, hlines⟩ := forall_mem_cons.mp hlines
    have hlast : line.getLastD c = cr → e ≠ [lf] := by
      rcases eq_nil_or_concat line with rfl | ⟨_, d, rfl⟩
      · exact hc
      · intro hd
        exact absurd (by simpa using hd) (hline d (by simp)).1
    obtain ⟨_, hc', hend⟩ := scan_end he hlast
    obtain ⟨d, hd⟩ := ih hc' hlines
    refine ⟨d, ?_⟩
    rw [flatMap_cons, append_assoc, scan_append, scan_plain hline]
    dsimp only
    rw [nil_append, hend, hd]
    rfl

/-- **Lines are read back**, in whichever way they are ended. -/
theorem convert_flatMap (he : e ∈ [[lf], [cr], [cr, lf]]) (hlines : ∀ line ∈ lines, Plain line) :
    convert (lines.flatMap (· ++ e)) = lines := by
  obtain ⟨d, hd⟩ := scan_lines (c := 0) he nofun hlines
  rw [convert, hd]
  rfl

/-- Three lines, the second one empty. -/
theorem convert_flatMap_crlf :
    convert ([[97, 98], [], [99]].flatMap (· ++ [cr, lf])) = [[97, 98], [], [99]] :=
  convert_flatMap (by decide) (by unfold Plain; decide)

/-- No line holds a line end. -/
theorem plain_lines (hslice : Plain slice) : ∀ line ∈ (scan c slice t).1, Plain line := by
  fun_induction scan c slice t with
  | case1 => nofun
  | case2 c slice char rest h ih => exact ih (forall_mem_append.mpr ⟨hslice, by simpa using h⟩)
  | case3 c slice char rest h hlf ih => exact ih nofun
  | case4 c slice char rest h hlf r ih => exact forall_mem_cons.mpr ⟨hslice, ih nofun⟩

/-- **Ends of lines can be exchanged**: lines hold none, and stay when all end in the same way. -/
theorem convert_plain (data : Text) : (∀ line ∈ convert data, Plain line) ∧
    ∀ e ∈ [[lf], [cr], [cr, lf]], convert ((convert data).flatMap (· ++ e)) = convert data := by
  have hplain : ∀ line ∈ convert data, Plain line := by
    have hlines := @plain_lines 0 [] data nofun
    simp only [convert]
    split_ifs
    · exact hlines
    · exact forall_mem_append.mpr ⟨hlines, by simpa using (@plain_scan 0 [] data nofun nofun).1⟩
  refine ⟨hplain, fun e he => ?_⟩
  obtain ⟨d, hd⟩ := scan_lines (c := 0) he nofun hplain
  generalize convert data = lines at hd ⊢
  rw [convert, hd]
  rfl

end DartVm.LineSplitter
