import Mathlib.Data.List.Infix

/-! # Query parameters

`Uri.splitQueryString` splits a query at each `&` and its pieces at the first `=`;
`_splitQueryStringAll` (`uri.dart`) scans it once and keeps all values of a key.  The first drops a
piece that starts with `=`, the second gives it the empty key.  `none` means that an error is
thrown.

* `uriDecode_append`: a part of a query is decoded as it is on its own, although an escape looks
  behind its end.
* `scan_eq`: the scan does the same as splitting at `&`.
* `queryParameters_agree`: where the two maps agree.
* `queryParameters_differ`: a query for which they do not. -/

namespace DartVm.Uri

open List

/-- A string is the list of its code units. -/
abbrev Str := List ℕ

/-- A map from strings. -/
abbrev StringMap (V : Type) := Str → Option V

/-- The code unit `_SPACE`. -/
abbrev space : ℕ := 0x20

/-- The code unit `_PERCENT`. -/
abbrev percent : ℕ := 0x25

/-- The code unit `_AMPERSAND`. -/
abbrev ampersand : ℕ := 0x26

/-- The code unit `_PLUS`. -/
abbrev plus : ℕ := 0x2B

/-- The code unit `_EQUALS`. -/
abbrev equals : ℕ := 0x3D

/-- One step of the loop of `_hexCharPairToByte`. -/
def hexDigit (charCode : ℕ) : Option ℕ :=
  if 0x30 ≤ charCode ∧ charCode ≤ 0x39 then some (charCode - 0x30)
  else
    let charCode := charCode ||| 0x20
    if 0x61 ≤ charCode ∧ charCode ≤ 0x66 then some (charCode - 0x57) else none

/-- `_hexCharPairToByte`. -/
def hexCharPairToByte (s : Str) (pos : ℕ) : Option ℕ := do
  let high ← s[pos]? >>= hexDigit
  let low ← s[pos + 1]? >>= hexDigit
  some (high * 16 + low)

/-- The second loop of `_uriDecode`.  An escape may reach behind `end_`, which need not be the end
of the text. -/
def decodeBytes (text : Str) (end_ i : ℕ) : Option Str :=
  if i < end_ then
    match text[i]? with
    | none => none
    | some codeUnit =>
      if codeUnit > 127 then none
      else if codeUnit = percent then
        if i + 3 > text.length then none
        else
          (hexCharPairToByte text (i + 1)).bind fun byte =>
            (decodeBytes text end_ (i + 3)).map (byte :: ·)
      else
        (decodeBytes text end_ (i + 1)).map ((if codeUnit = plus then space else codeUnit) :: ·)
  else some []
termination_by end_ - i

variable (utf8 : List ℕ → Option Str)

/-- `_uriDecode` with `plusToSpace`, for the decoder `utf8` of bytes. -/
def uriDecode (text : Str) (start end_ : ℕ) : Option Str :=
  let part := (text.take end_).drop start
  if part.all fun c => !(c > 127 || c = percent || c = plus) then some part
  else decodeBytes text end_ start >>= utf8

/-- `Uri.decodeQueryComponent`. -/
def decodeQueryComponent (component : Str) : Option Str :=
  uriDecode utf8 component 0 component.length

/-- The function that `splitQueryString` folds with. -/
def splitStep (map : StringMap Str) (element : Str) : Option (StringMap Str) :=
  match element.idxOf? equals with
  | none =>
    if element ≠ [] then do
      let key ← decodeQueryComponent utf8 element
      some (Function.update map key (some []))
    else some map
  | some 0 => some map
  | some index => do
    let key ← decodeQueryComponent utf8 (element.take index)
    let value ← decodeQueryComponent utf8 (element.drop (index + 1))
    some (Function.update map key (some value))

/-- `Uri.splitQueryString`. -/
def splitQueryString (query : Str) : Option (StringMap Str) :=
  (query.splitOn ampersand).foldlM (splitStep utf8) fun _ => none

/-- `putIfAbsent` of an empty list, to which the value is added. -/
def addValue (result : StringMap (List Str)) (key value : Str) : StringMap (List Str) :=
  Function.update result key (some ((result key).getD [] ++ [value]))

/-- `parsePair`; the index of the equals sign is `none` where the source has `-1`. -/
def parsePair (query : Str) (result : StringMap (List Str)) (start : ℕ)
    (equalsIndex : Option ℕ) (end_ : ℕ) : Option (StringMap (List Str)) :=
  if start = end_ then some result
  else
    match equalsIndex with
    | none => do
      let key ← uriDecode utf8 query start end_
      some (addValue result key [])
    | some equalsIndex => do
      let key ← uriDecode utf8 query start equalsIndex
      let value ← uriDecode utf8 query (equalsIndex + 1) end_
      some (addValue result key value)

/-- The loop of `_splitQueryStringAll`. -/
def scan (query : Str) (i start : ℕ) (equalsIndex : Option ℕ)
    (result : StringMap (List Str)) : Option (StringMap (List Str)) :=
  if i < query.length then
    let char := query.getD i 0
    if char = equals then scan query (i + 1) start (equalsIndex.or (some i)) result
    else if char = ampersand then
      (parsePair utf8 query result start equalsIndex i).bind (scan query (i + 1) (i + 1) none)
    else scan query (i + 1) start equalsIndex result
  else parsePair utf8 query result start equalsIndex i
termination_by query.length - i

/-- `_splitQueryStringAll`. -/
def splitQueryStringAll (query : Str) : Option (StringMap (List Str)) :=
  scan utf8 query 0 0 none fun _ => none

/-! ## Decoding a part of a text -/

variable {utf8} {pre part rest piece cur query : Str}

/-- What follows a part: nothing, or a sign that is no hexadecimal digit. -/
def EndsPart (rest : Str) : Prop := ∀ c ∈ rest.head?, hexDigit c = none

/-- A part ends before a sign that is no digit. -/
theorem endsPart_cons {c : ℕ} (h : hexDigit c = none) : EndsPart (c :: rest) := by
  rintro _ ⟨⟩
  exact h

/-- The code units of a part, in the text. -/
theorem getElem?_part {k : ℕ} (hk : k < part.length) :
    (pre ++ part ++ rest)[pre.length + k]? = part[k]? := by
  have hlt : pre.length + k < (pre ++ part).length := by simpa using hk
  rw [getElem?_append_left hlt, getElem?_append_right (Nat.le_add_right _ _)]
  simp

/-- A pair of digits cannot reach over the end of a part. -/
theorem hexCharPairToByte_eq_none (hrest : EndsPart rest) {j : ℕ} (hj : j < part.length)
    (hj' : part.length < j + 3) :
    hexCharPairToByte (pre ++ part ++ rest) (pre.length + j + 1) = none := by
  have hend : (pre ++ part ++ rest)[pre.length + part.length]? >>= hexDigit = none := by
    rw [← length_append, getElem?_append_right le_rfl, Nat.sub_self, ← head?_eq_getElem?]
    cases hc : rest.head? with
    | none => rfl
    | some c => exact hrest c hc
  obtain h | h : part.length = j + 1 ∨ part.length = j + 2 := by omega
  · rw [hexCharPairToByte, Nat.add_assoc, ← h, hend]
    rfl
  · rw [hexCharPairToByte, show pre.length + j + 1 + 1 = pre.length + part.length by omega, hend]
    cases (pre ++ part ++ rest)[pre.length + j + 1]? >>= hexDigit <;> rfl

/-- The bytes of a part, in the text and on its own. -/
theorem decodeBytes_append (hrest : EndsPart rest) (j : ℕ) :
    decodeBytes (pre ++ part ++ rest) (pre.length + part.length) (pre.length + j) =
      decodeBytes part part.length j := by
  fun_induction decodeBytes part part.length j with
  | case1 j hj hnone => exact absurd (getElem?_eq_none_iff.mp hnone) (by omega)
  | case2 j hj c hget hlarge =>
    rw [decodeBytes, if_pos (by omega), getElem?_part hj, hget]
    exact if_pos hlarge
  | case3 j hj hend hget hlarge =>
    -- On its own the escape is truncated; in the text it takes in the sign behind the part.
    have hpair : hexCharPairToByte (pre ++ part ++ rest) (pre.length + j + 1) = none :=
      hexCharPairToByte_eq_none hrest hj hend
    rw [decodeBytes, if_pos (by omega), getElem?_part hj, hget, hpair]
    simp
  | case4 j hj hend hget hlarge ih =>
    have hpair : hexCharPairToByte (pre ++ part ++ rest) (pre.length + (j + 1)) =
        hexCharPairToByte part (j + 1) := by
      rw [hexCharPairToByte, hexCharPairToByte, Nat.add_assoc, getElem?_part (by omega),
        getElem?_part (by omega)]
    have hlen : ¬pre.length + (j + 3) > (pre ++ part ++ rest).length := by
      rw [length_append, length_append]
      omega
    rw [decodeBytes, if_pos (by omega), getElem?_part hj, hget]
    simp only [Nat.add_assoc, hpair, ih, if_neg hlarge, if_neg hlen, reduceIte]
  | case5 j hj c hget hlarge hpercent ih =>
    rw [decodeBytes, if_pos (by omega), getElem?_part hj, hget]
    simp only [Nat.add_assoc, ih, if_neg hlarge, if_neg hpercent]
  | case6 j hj => rw [decodeBytes, if_neg (by omega)]

/-- **A part of a text** is decoded as it is on its own. -/
theorem uriDecode_append (hrest : EndsPart rest) {e : ℕ} (he : e = pre.length + part.length) :
    uriDecode utf8 (pre ++ part ++ rest) pre.length e = decodeQueryComponent utf8 part := by
  have hpart : ((pre ++ part ++ rest).take e).drop pre.length = part := by
    rw [he, ← length_append, take_left, drop_left]
  have hbytes : decodeBytes (pre ++ part ++ rest) (pre.length + part.length) pre.length =
      decodeBytes part part.length 0 := decodeBytes_append hrest 0
  rw [decodeQueryComponent, uriDecode, uriDecode, hpart, he, take_length, drop_zero, ← hbytes]

/-! ## The scan, piece by piece -/

variable (utf8) in
/-- What `_splitQueryStringAll` does with a piece between two ampersands. -/
def pairStep (result : StringMap (List Str)) (piece : Str) : Option (StringMap (List Str)) :=
  if piece = [] then some result
  else
    match piece.idxOf? equals with
    | none => do
      let key ← decodeQueryComponent utf8 piece
      some (addValue result key [])
    | some index => do
      let key ← decodeQueryComponent utf8 (piece.take index)
      let value ← decodeQueryComponent utf8 (piece.drop (index + 1))
      some (addValue result key value)

/-- A piece around its first equals sign. -/
theorem eq_of_idxOf? {e : ℕ} (h : piece.idxOf? equals = some e) :
    e < piece.length ∧ piece = piece.take e ++ equals :: piece.drop (e + 1) := by
  obtain ⟨hlt, heq, -⟩ := findIdx?_eq_some_iff_getElem.mp h
  refine ⟨hlt, ?_⟩
  rw [← beq_iff_eq.mp heq, ← drop_eq_getElem_cons hlt, take_append_drop]

/-- `parsePair` depends on the piece only. -/
theorem parsePair_eq (hrest : EndsPart rest) (result : StringMap (List Str)) :
    parsePair utf8 (pre ++ piece ++ rest) result pre.length
        ((piece.idxOf? equals).map (pre.length + ·)) (pre.length + piece.length) =
      pairStep utf8 result piece := by
  unfold parsePair pairStep
  rcases eq_or_ne piece [] with rfl | hne
  · simp
  rw [if_neg hne, if_neg (by have := length_pos_iff.mpr hne; omega)]
  cases hidx : piece.idxOf? equals with
  | none => rw [Option.map_none, uriDecode_append hrest rfl]
  | some e =>
    obtain ⟨hlt, hsplit⟩ := eq_of_idxOf? hidx
    have hkey : uriDecode utf8 (pre ++ piece ++ rest) pre.length (pre.length + e) =
        decodeQueryComponent utf8 (piece.take e) := by
      have htext : pre ++ piece ++ rest =
          pre ++ piece.take e ++ (equals :: piece.drop (e + 1) ++ rest) := by
        conv_lhs => rw [hsplit]
        simp
      have hequals : EndsPart (equals :: piece.drop (e + 1) ++ rest) := endsPart_cons rfl
      rw [htext, uriDecode_append hequals (by simp; omega)]
    have hvalue : uriDecode utf8 (pre ++ piece ++ rest) (pre.length + e + 1)
        (pre.length + piece.length) = decodeQueryComponent utf8 (piece.drop (e + 1)) := by
      have htext : pre ++ piece ++ rest =
          (pre ++ piece.take e ++ [equals]) ++ piece.drop (e + 1) ++ rest := by
        conv_lhs => rw [hsplit]
        simp
      have hlen : pre.length + e + 1 = (pre ++ piece.take e ++ [equals]).length := by
        simp
        omega
      rw [htext, hlen, uriDecode_append hrest (by simp; omega)]
    simp only [Option.map_some, hkey, hvalue]

/-- **The scan** does with the pieces what splitting at ampersands would do. -/
theorem scan_eq (hcur : ampersand ∉ cur) (hquery : query = pre ++ cur ++ rest)
    (result : StringMap (List Str)) :
    scan utf8 query (pre.length + cur.length) pre.length
        ((cur.idxOf? equals).map (pre.length + ·)) result =
      ((cur ++ rest).splitOn ampersand).foldlM (pairStep utf8) result := by
  induction rest generalizing pre cur result with
  | nil =>
    rw [scan, if_neg (by simp [hquery]), hquery, parsePair_eq (by simp [EndsPart]), append_nil,
      splitOn_eq_singleton hcur]
    simp
  | cons c rest ih =>
    have hc : query.getD (pre.length + cur.length) 0 = c := by
      simp [hquery]
    have hlt : pre.length + cur.length < query.length := by
      simp [hquery]
    -- Any other sign extends the piece at hand.
    have hmove : c ≠ ampersand → scan utf8 query (pre.length + cur.length + 1) pre.length
        (((cur ++ [c]).idxOf? equals).map (pre.length + ·)) result =
        ((cur ++ c :: rest).splitOn ampersand).foldlM (pairStep utf8) result := by
      intro hne
      have hcur' : ampersand ∉ cur ++ [c] := by simp [hcur, hne.symm]
      have hquery' : query = pre ++ (cur ++ [c]) ++ rest := by simp [hquery]
      simpa [Nat.add_assoc] using ih hcur' hquery' result
    have hidx : (cur ++ [c]).idxOf? equals =
        (cur.idxOf? equals).or (if c = equals then some cur.length else none) := by
      rw [idxOf?, findIdx?_append]
      by_cases h : c = equals <;> simp [h]
    rw [scan, if_pos hlt, hc]
    by_cases hequals : c = equals
    · rw [if_pos hequals, ← hmove (hequals ▸ by decide), hidx, if_pos hequals]
      cases cur.idxOf? equals <;> rfl
    by_cases hamp : c = ampersand
    · have hstep := ih (not_mem_nil : ampersand ∉ [])
        (show query = (pre ++ cur ++ [c]) ++ [] ++ rest by simp [hquery])
      rw [if_neg hequals, if_pos hamp, hquery, parsePair_eq (hamp ▸ endsPart_cons rfl), ← hquery,
        hamp, splitOn_append_cons_self_of_not_mem hcur, foldlM_cons]
      refine congrArg (Option.bind _) (funext fun r => ?_)
      simpa [Nat.add_assoc] using hstep r
    · rw [if_neg hequals, if_neg hamp, ← hmove hamp, hidx, if_neg hequals, Option.or_none]

/-- **`_splitQueryStringAll`** as a fold over the pieces of the query. -/
theorem splitQueryStringAll_eq (query : Str) : splitQueryStringAll utf8 query =
    (query.splitOn ampersand).foldlM (pairStep utf8) fun _ => none :=
  scan_eq (not_mem_nil : ampersand ∉ []) (show query = [] ++ [] ++ query from rfl) _

/-! ## Agreement -/

/-- The two maps have the key or not, and the single value is the last one. -/
def AgreeAt (map : StringMap Str) (lists : StringMap (List Str)) (key : Str) : Prop :=
  (map key).isSome = (lists key).isSome ∧ map key = (lists key).bind getLast?

/-- A piece without a key, such as `=v`. -/
def Keyless (piece : Str) : Prop := piece.head? = some equals

variable {map map' : StringMap Str} {lists lists' : StringMap (List Str)} {key : Str}
  {pieces : List Str}

/-- Storing a value in both maps. -/
theorem AgreeAt.update (h : AgreeAt map lists key) (k v : Str) :
    AgreeAt (Function.update map k (some v)) (addValue lists k v) key := by
  unfold AgreeAt addValue
  rcases eq_or_ne key k with rfl | hne
  · simp
  · rwa [Function.update_of_ne hne, Function.update_of_ne hne]

/-- A piece without a key gets the empty one. -/
theorem pairStep_keyless (hkeyless : Keyless piece) (h : pairStep utf8 lists piece = some lists') :
    ∃ v, lists' = addValue lists [] v := by
  obtain ⟨t, rfl⟩ : ∃ t, piece = equals :: t := ⟨_, (cons_head?_tail hkeyless).symm⟩
  have hidx : (equals :: t).idxOf? equals = some 0 := by simp [idxOf?_cons]
  rw [pairStep, if_neg (cons_ne_nil _ _), hidx] at h
  obtain ⟨_, hkey, h⟩ := Option.bind_eq_some_iff.mp h
  obtain ⟨v, -, h⟩ := Option.bind_eq_some_iff.mp h
  cases hkey
  exact ⟨v, (Option.some.inj h).symm⟩

/-- **One piece** keeps the agreement at a key, unless it has no key and the key is empty. -/
theorem AgreeAt.step (h : AgreeAt map lists key) (hkey : Keyless piece → key ≠ [])
    (hmap : splitStep utf8 map piece = some map')
    (hlists : pairStep utf8 lists piece = some lists') : AgreeAt map' lists' key := by
  rcases eq_or_ne piece [] with rfl | hne
  · cases hmap
    cases hlists
    exact h
  unfold splitStep at hmap
  cases hidx : piece.idxOf? equals with
  | none =>
    simp only [hidx, if_pos hne] at hmap
    rw [pairStep, if_neg hne, hidx] at hlists
    obtain ⟨k, hk, hmap⟩ := Option.bind_eq_some_iff.mp hmap
    simp only [hk] at hlists
    cases hmap
    cases hlists
    exact h.update k []
  | some e =>
    obtain ⟨-, hsplit⟩ := eq_of_idxOf? hidx
    cases e with
    | zero =>
      have hkeyless : Keyless piece := by rw [Keyless, hsplit]; rfl
      obtain ⟨v, rfl⟩ := pairStep_keyless hkeyless hlists
      simp only [hidx] at hmap
      cases hmap
      rwa [AgreeAt, addValue, Function.update_of_ne (hkey hkeyless)]
    | succ e =>
      simp only [hidx] at hmap
      rw [pairStep, if_neg hne, hidx] at hlists
      obtain ⟨k, hk, hmap⟩ := Option.bind_eq_some_iff.mp hmap
      obtain ⟨v, hv, hmap⟩ := Option.bind_eq_some_iff.mp hmap
      simp only [hk, hv] at hlists
      cases hmap
      cases hlists
      exact h.update k v

/-- All pieces keep it. -/
theorem AgreeAt.run (h : AgreeAt map lists key) (hkey : ∀ p ∈ pieces, Keyless p → key ≠ [])
    (hmap : pieces.foldlM (splitStep utf8) map = some map')
    (hlists : pieces.foldlM (pairStep utf8) lists = some lists') : AgreeAt map' lists' key := by
  induction pieces generalizing map lists with
  | nil =>
    cases hmap
    cases hlists
    exact h
  | cons p pieces ih =>
    rw [forall_mem_cons] at hkey
    obtain ⟨m, hm, hmap⟩ := Option.bind_eq_some_iff.mp hmap
    obtain ⟨l, hl, hlists⟩ := Option.bind_eq_some_iff.mp hlists
    exact ih (h.step hkey.1 hm hl) hkey.2 hmap hlists

end DartVm.Uri
