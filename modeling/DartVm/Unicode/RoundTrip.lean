import DartVm.Unicode.Sequences

/-! # Agreement of the UTF-8 loops

A byte array that repeated `Decode` consumes is a concatenation of sequences.  By induction on these
the other loops agree with it: the ones that validate, count, and decode into a buffer.

* `Encodes`: bytes encode a list of code points.
* `isValid_eq`, `Encodes.codeUnitCount_eq`: validating and counting agree with decoding.
* `utf8_correct`: the loops of `Utf8` as a whole. -/

namespace DartVm.Unicode

open List

/-! ## Concatenations of sequences -/

/-- **Encoded list**: the bytes are the sequences of the code points, one after the other. -/
inductive Encodes : List Byte → List CodePoint → Prop
  | nil : Encodes [] []
  | cons {lead : Byte} {trail rest : List Byte} {ch : CodePoint} {cps : List CodePoint} :
      IsSequence lead trail ch → Encodes rest cps → Encodes (lead :: trail ++ rest) (ch :: cps)

/-- After a sequence, decoding goes on behind its trail bytes. -/
theorem IsSequence.drop_decode {lead : Byte} {trail : List Byte} {ch : CodePoint}
    (h : IsSequence lead trail ch) (rest : List Byte) :
    (trail ++ rest).drop ((decode (lead :: (trail ++ rest))).2 - 1) = rest := by
  rw [← cons_append, h.decode_eq, Nat.add_sub_cancel, drop_left]

variable {cps : List CodePoint} {bytes : List Byte}

/-- Encoded code points are decoded to themselves. -/
theorem Encodes.decodeAll_eq (h : Encodes bytes cps) : decodeAll bytes = some cps := by
  induction h with
  | nil => rw [decodeAll]
  | @cons lead trail rest ch cps hseq _ ih =>
    rw [cons_append, decodeAll]
    have hdrop := hseq.drop_decode rest
    rw [← cons_append, hseq.decode_eq] at hdrop ⊢
    simp only [hseq.ne_neg_one, if_false, hdrop, ih, Option.map_some]

/-- What is decoded encodes its code points. -/
theorem encodes_of_decodeAll (bytes : List Byte) :
    ∀ cps, decodeAll bytes = some cps → Encodes bytes cps := by
  fun_induction decodeAll bytes with
  | case1 =>
    rintro _ ⟨⟩
    exact .nil
  | case2 => simp
  | case3 lead rest ch numBytes hdecode hne ih =>
    intro cps hcps
    obtain ⟨cps', hcps', rfl⟩ := Option.map_eq_some_iff.mp hcps
    obtain ⟨trail, rest', ch', rfl, hseq⟩ := decode_cases (by rw [hdecode]; exact hne)
    have hdrop := hseq.drop_decode rest'
    rw [← cons_append, hseq.decode_eq] at hdecode
    rw [← cons_append, hseq.decode_eq] at hdrop
    cases hdecode
    rw [hdrop] at ih
    exact .cons hseq (ih cps' (by rwa [hdrop] at hcps'))

/-! ## Validation -/

/-- `IsValid`, sequence by sequence. -/
theorem isValid_cons (lead : Byte) (rest : List Byte) :
    isValid (lead :: rest) =
      if (decode (lead :: rest)).1 = -1 then false
      else isValid (rest.drop ((decode (lead :: rest)).2 - 1)) := by
  by_cases hge : 0x80 ≤ lead.toNat
  · rw [isValid, decode_of_ge hge]
    dsimp only
    rw [if_pos ((ge_0x80_iff lead).mpr hge), toNat_setWidth_byte]
    cases hread : readTrailBytes (lead :: rest) (kTrailBytes.getD lead.toNat 0)
        (lead.setWidth 32) with
    | none => rfl
    | some read =>
      obtain ⟨isMalformed, ch⟩ := read
      dsimp only
      split
      next hwell =>
        -- A well-formed sequence is in range.
        have hne : ch - kMagicBits.getD (kTrailBytes.getD lead.toNat 0) 0 ≠ -1 := by
          intro heq
          rw [heq] at hwell
          simp [isWellFormed, isOutOfRange] at hwell
        rw [if_neg hne]
      next => rfl
  · rw [isValid, decode_ascii (by omega)]
    rw [if_neg (by rw [ge_0x80_iff]; exact hge)]
    have hne : (lead.setWidth 32 : CodePoint) ≠ -1 := (isSequence_ascii (by omega)).ne_neg_one
    rw [if_neg hne]
    rfl

/-- **`IsValid` accepts what can be decoded.** -/
theorem isValid_eq (bytes : List Byte) : isValid bytes = (decodeAll bytes).isSome := by
  fun_induction decodeAll bytes with
  | case1 => rw [isValid]; rfl
  | case2 lead rest numBytes hdecode =>
    rw [isValid_cons, hdecode]
    rfl
  | case3 lead rest ch numBytes hdecode hne ih =>
    rw [isValid_cons, hdecode]
    simp only [hne, if_false, ih, Option.isSome_map]

/-! ## Code units -/

/-- The type of a code point. -/
def charType (ch : CodePoint) : StringType :=
  if ch.toNat ≤ 0xFF then .latin1 else if ch.toNat ≤ 0xFFFF then .bmp else .supplementary

/-- The UTF-16 code units of a code point. -/
def utf16 (ch : CodePoint) : List (BitVec 16) :=
  if charType ch = .supplementary then
    [BitVec.ofNat 16 (0xD800 + (ch.toNat - 0x10000) / 0x400),
      BitVec.ofNat 16 (0xDC00 + (ch.toNat - 0x10000) % 0x400)]
  else [BitVec.ofNat 16 ch.toNat]

/-- The most restrictive type of a list of code points. -/
def stringType (cps : List CodePoint) : StringType :=
  if cps.all (charType · = .latin1) then .latin1
  else if cps.all (charType · ≠ .supplementary) then .bmp
  else .supplementary

/-- The less restrictive of two types. -/
def StringType.sup : StringType → StringType → StringType
  | .latin1, type => type
  | type, .latin1 => type
  | .bmp, .bmp => .bmp
  | _, _ => .supplementary

/-- The wider of three string types. -/
theorem StringType.sup_assoc (a b c : StringType) : (a.sup b).sup c = a.sup (b.sup c) := by
  cases a <;> cases b <;> cases c <;> rfl

/-- The type of a string, by its first code point. -/
theorem stringType_cons (ch : CodePoint) (cps : List CodePoint) :
    stringType (ch :: cps) = (charType ch).sup (stringType cps) := by
  have himp : cps.all (charType · = .latin1) → cps.all (charType · ≠ .supplementary) := by
    simp only [all_eq_true, decide_eq_true_eq]
    intro hall c hc
    rw [hall c hc]
    simp
  unfold stringType
  rw [all_cons, all_cons]
  cases hlatin1 : cps.all (charType · = .latin1) <;>
    cases hbmp : cps.all (charType · ≠ .supplementary)
  · cases charType ch <;> rfl
  · cases charType ch <;> rfl
  · rw [himp hlatin1] at hbmp
    cases hbmp
  · cases charType ch <;> rfl

/-- Trail bytes are not counted. -/
theorem foldl_countCodeUnit_trail (trail : List Byte) (h : ∀ t ∈ trail, isTrailByte t)
    (count : ℕ × StringType) : trail.foldl countCodeUnit count = count := by
  induction trail with
  | nil => rfl
  | cons t trail ih =>
    rw [foldl_cons, countCodeUnit, if_pos (h t (by simp))]
    exact ih fun t' ht' => h t' (by simp [ht'])

section Lead

variable {lead : Byte} {trail : List Byte} {ch : CodePoint} (h : IsSequence lead trail ch)
include h

/-- The lead byte tells whether a code point is in Latin-1. -/
theorem IsSequence.charType_latin1 : charType ch = .latin1 ↔ isLatin1SequenceStart lead := by
  rw [h.latin1, charType]
  split
  next hle => exact iff_of_true rfl hle
  next hle =>
    refine iff_of_false (fun heq => ?_) hle
    split at heq <;> cases heq

/-- The lead byte tells whether a code point is supplementary. -/
theorem IsSequence.charType_supplementary :
    charType ch = .supplementary ↔ isSupplementarySequenceStart lead := by
  rw [h.supplementary, charType]
  split
  · exact iff_of_false (by simp) (by omega)
  split
  · exact iff_of_false (by simp) (by omega)
  · exact iff_of_true rfl (by omega)

/-- The lead byte tells how many code units the code point has, and of which type. -/
theorem IsSequence.countCodeUnit_lead (count : ℕ × StringType) :
    countCodeUnit count lead = (count.1 + (utf16 ch).length, count.2.sup (charType ch)) := by
  have hlatin1 := h.charType_latin1
  have hsupp := h.charType_supplementary
  cases htype : charType ch with
  | latin1 =>
    have hl : isLatin1SequenceStart lead = true := by simpa [htype] using hlatin1
    simp only [countCodeUnit, utf16, h.lead_start, htype, hl]
    cases count.2 <;> rfl
  | bmp =>
    have hl : isLatin1SequenceStart lead = false := by simpa [htype] using hlatin1
    have hs : isSupplementarySequenceStart lead = false := by simpa [htype] using hsupp
    simp only [countCodeUnit, utf16, h.lead_start, htype, hl, hs]
    cases count.2 <;> rfl
  | supplementary =>
    have hl : isLatin1SequenceStart lead = false := by simpa [htype] using hlatin1
    have hs : isSupplementarySequenceStart lead = true := by simpa [htype] using hsupp
    simp only [countCodeUnit, utf16, h.lead_start, htype, hl, hs]
    cases count.2 <;> rfl

end Lead

/-- Counting the bytes counts the code units of UTF-16. -/
theorem Encodes.foldl_countCodeUnit (h : Encodes bytes cps) (count : ℕ × StringType) :
    bytes.foldl countCodeUnit count =
      (count.1 + (cps.flatMap utf16).length, count.2.sup (stringType cps)) := by
  induction h generalizing count with
  | nil =>
    obtain ⟨len, type⟩ := count
    cases type <;> rfl
  | @cons lead trail rest ch cps hseq _ ih =>
    rw [cons_append, foldl_cons, foldl_append,
      foldl_countCodeUnit_trail trail hseq.trail_bytes, ih, hseq.countCodeUnit_lead count,
      flatMap_cons, length_append, stringType_cons, StringType.sup_assoc, add_assoc]

/-- **`CodeUnitCount` is the length in UTF-16**, with the type of the string. -/
theorem Encodes.codeUnitCount_eq (h : Encodes bytes cps) :
    codeUnitCount bytes = ((cps.flatMap utf16).length, stringType cps) := by
  rw [codeUnitCount, h.foldl_countCodeUnit, zero_add]
  rfl

/-! ## Decoding into a buffer -/

/-- The characters of type Latin-1. -/
theorem charType_eq_latin1_iff (ch : CodePoint) : charType ch = .latin1 ↔ isLatin1 ch := by
  rw [isLatin1_iff, charType]
  split
  next hle => exact iff_of_true rfl hle
  next hle =>
    refine iff_of_false (fun heq => ?_) hle
    split at heq <;> cases heq

/-- `DecodeToLatin1` fills the array with the code points. -/
theorem Encodes.decodeToLatin1_eq (h : Encodes bytes cps)
    (hlatin1 : ∀ ch ∈ cps, charType ch = .latin1) (written left : List Byte)
    (hlen : left.length = cps.length) :
    decodeToLatin1 bytes (written ++ left) written.length =
      some (true, written ++ cps.map (·.setWidth 8)) := by
  induction h generalizing written left with
  | nil =>
    rw [length_nil, length_eq_zero_iff] at hlen
    rw [decodeToLatin1, hlen]
    rfl
  | @cons lead trail rest ch cps hseq _ ih =>
    obtain ⟨old, left, rfl⟩ := exists_cons_of_length_eq_add_one hlen
    have hch : charType ch = .latin1 := hlatin1 ch (by simp)
    have hdrop := hseq.drop_decode rest
    rw [← cons_append, hseq.decode_eq] at hdrop
    rw [cons_append, decodeToLatin1,
      if_pos (hseq.charType_latin1.mp hch), ← cons_append, hseq.decode_eq]
    dsimp only
    rw [if_neg hseq.ne_neg_one, if_pos ((charType_eq_latin1_iff ch).mp hch), hdrop]
    have hset : (written ++ old :: left).set written.length (ch.setWidth 8) =
        (written ++ [ch.setWidth 8]) ++ left := by simp
    have hih := ih (fun c hc => hlatin1 c (by simp [hc])) (written ++ [ch.setWidth 8]) left
      (by simpa using hlen)
    rw [length_append, length_singleton] at hih
    rw [hset, hih]
    simp

/-- `Utf16::Encode` stores the surrogates of a supplementary code point. -/
theorem encodeSurrogates_eq {ch : CodePoint} (hlo : 0x10000 ≤ ch.toNat)
    (hhi : ch.toNat ≤ 0x10FFFF) :
    encodeSurrogates ch =
      (BitVec.ofNat 16 (0xD800 + (ch.toNat - 0x10000) / 0x400),
        BitVec.ofNat 16 (0xDC00 + (ch.toNat - 0x10000) % 0x400)) := by
  have h10 : (ch.sshiftRight 10).toNat = ch.toNat / 1024 := toNat_sshiftRight hhi 10
  have hlow : (ch &&& 0x3FF).toNat = ch.toNat % 1024 := Nat.and_two_pow_sub_one_eq_mod ch.toNat 10
  refine Prod.ext (BitVec.eq_of_toNat_eq ?_) (BitVec.eq_of_toNat_eq ?_)
  · rw [BitVec.toNat_ofNat]
    change (0xD7C0 + _) % 2 ^ 32 % 2 ^ 16 = _
    omega
  · rw [BitVec.toNat_ofNat]
    change (0xDC00 + _) % 2 ^ 32 % 2 ^ 16 = _
    omega

/-- `DecodeToUTF16` fills the array with the code units. -/
theorem Encodes.decodeToUtf16_eq (h : Encodes bytes cps) (written left : List (BitVec 16))
    (hlen : left.length = (cps.flatMap utf16).length) :
    decodeToUtf16 bytes (written ++ left) written.length =
      some (true, written ++ cps.flatMap utf16) := by
  induction h generalizing written left with
  | nil =>
    rw [flatMap_nil, length_nil, length_eq_zero_iff] at hlen
    rw [decodeToUtf16, hlen]
    rfl
  | @cons lead trail rest ch cps hseq _ ih =>
    have hdrop := hseq.drop_decode rest
    rw [← cons_append, hseq.decode_eq] at hdrop
    rw [flatMap_cons, length_append] at hlen
    -- A supplementary code point takes two places of the array, any other one.
    by_cases hsupp : charType ch = .supplementary
    · have hch : 0x10000 ≤ ch.toNat := hseq.supplementary.mp (hseq.charType_supplementary.mp hsupp)
      have hint : ch.toInt > 0xFFFF := by
        have hrange := hseq.inRange
        rcases toInt_cases ch with ⟨-, heq⟩ | ⟨hge, -⟩ <;> omega
      have hunits : utf16 ch = [(encodeSurrogates ch).1, (encodeSurrogates ch).2] := by
        rw [encodeSurrogates_eq hch hseq.inRange, utf16, if_pos hsupp]
      rw [hunits, length_cons, add_comm] at hlen
      obtain ⟨old₁, left₁, rfl⟩ := exists_cons_of_length_eq_add_one hlen
      obtain ⟨old₂, left, rfl⟩ := exists_cons_of_length_eq_add_one
        (show left₁.length = _ + 1 from Nat.succ.inj hlen)
      rw [cons_append, decodeToUtf16, if_pos (by simp), ← cons_append, hseq.decode_eq]
      dsimp only
      rw [if_neg hseq.ne_neg_one, if_pos (hseq.charType_supplementary.mp hsupp),
        if_neg (by simp), if_pos hint, hdrop]
      have hset : ((written ++ old₁ :: old₂ :: left).set written.length (encodeSurrogates ch).1).set
          (written.length + 1) (encodeSurrogates ch).2 = (written ++ utf16 ch) ++ left := by
        rw [hunits]
        simp
      have hih := ih (written ++ utf16 ch) left (by simpa using hlen)
      rw [length_append, hunits, length_cons, length_singleton, ← hunits] at hih
      rw [hset, hih, flatMap_cons, append_assoc]
    · have hunits : utf16 ch = [ch.setWidth 16] := by
        rw [utf16, if_neg hsupp]
        rfl
      rw [hunits, add_comm] at hlen
      obtain ⟨old, left, rfl⟩ := exists_cons_of_length_eq_add_one hlen
      rw [cons_append, decodeToUtf16, if_pos (by simp), ← cons_append, hseq.decode_eq]
      dsimp only
      rw [if_neg hseq.ne_neg_one,
        if_neg (fun hs => hsupp (hseq.charType_supplementary.mpr hs)), hdrop]
      have hset : (written ++ old :: left).set written.length (ch.setWidth 16) =
          (written ++ utf16 ch) ++ left := by
        rw [hunits]
        simp
      have hih := ih (written ++ utf16 ch) left (by simpa using hlen)
      rw [length_append, hunits, length_singleton, ← hunits] at hih
      rw [hset, hih, flatMap_cons, append_assoc]

/-! ## Round trip -/

/-- The code point of a Unicode scalar value. -/
def codePointOf (c : Char) : CodePoint := BitVec.ofNat 32 c.toNat

/-- A character is a code point. -/
theorem toNat_codePointOf (c : Char) : (codePointOf c).toNat = c.toNat ∧ c.toNat ≤ 0x10FFFF := by
  have hle : c.toNat ≤ 0x10FFFF := by
    have := c.valid
    unfold Char.toNat
    rcases this with h | h <;> omega
  exact ⟨by rw [codePointOf, BitVec.toNat_ofNat, Nat.mod_eq_of_lt (by omega)], hle⟩

/-- The encodings of scalar values, one after the other, encode their list. -/
theorem encodes_encode (s : List Char) :
    Encodes (s.flatMap fun c => encode (codePointOf c)) (s.map codePointOf) := by
  induction s with
  | nil => exact .nil
  | cons c s ih =>
    obtain ⟨hc, hle⟩ := toNat_codePointOf c
    obtain ⟨lead, trail, hencode, hseq⟩ := isSequence_encode (hc.symm ▸ hle)
    rw [flatMap_cons, hencode]
    exact .cons hseq ih

/-- A Latin-1 string has one code unit for each code point. -/
theorem stringType_eq_latin1 (h : stringType cps = .latin1) :
    (∀ ch ∈ cps, charType ch = .latin1) ∧ (cps.flatMap utf16).length = cps.length := by
  have hall : ∀ ch ∈ cps, charType ch = .latin1 := by
    unfold stringType at h
    split at h
    next hall => simpa using hall
    next => split at h <;> cases h
  refine ⟨hall, ?_⟩
  rw [length_flatMap, map_congr_left (fun ch hch => show (utf16 ch).length = 1 by
    simp [utf16, hall ch hch])]
  simp

/-- **UTF-8.** The encodings of scalar values are valid and decode back. A byte array is valid if
and only if repeated `Decode` consumes it; then `CodeUnitCount` returns the length of the UTF-16
encoding of the decoded list and its most restrictive type, and the decoders into a buffer of that
length store the list's encoding. -/
theorem utf8_correct :
    (∀ s : List Char, isValid (s.flatMap fun c => encode (codePointOf c)) ∧
      decodeAll (s.flatMap fun c => encode (codePointOf c)) = some (s.map codePointOf)) ∧
    ∀ bytes : List Byte, (isValid bytes ↔ ∃ cps, decodeAll bytes = some cps) ∧
      ∀ cps, decodeAll bytes = some cps →
        codeUnitCount bytes = ((cps.flatMap utf16).length, stringType cps) ∧
        (stringType cps = .latin1 → ∀ dst : List Byte, dst.length = (cps.flatMap utf16).length →
          decodeToLatin1 bytes dst 0 = some (true, cps.map (·.setWidth 8)) ∧
          ∀ ch ∈ cps, (ch.setWidth 8 : Byte).toNat = ch.toNat) ∧
        ∀ dst : List (BitVec 16), dst.length = (cps.flatMap utf16).length →
          decodeToUtf16 bytes dst 0 = some (true, cps.flatMap utf16) := by
  refine ⟨fun s => ?_, fun bytes => ⟨?_, fun cps hcps => ?_⟩⟩
  · have hdecode := (encodes_encode s).decodeAll_eq
    exact ⟨by rw [isValid_eq, hdecode]; rfl, hdecode⟩
  · rw [isValid_eq, Option.isSome_iff_exists]
  have h := encodes_of_decodeAll bytes cps hcps
  refine ⟨h.codeUnitCount_eq, fun htype dst hlen => ?_, fun dst hlen => ?_⟩
  · obtain ⟨hall, hcount⟩ := stringType_eq_latin1 htype
    refine ⟨h.decodeToLatin1_eq hall [] dst (by omega), fun ch hch => ?_⟩
    have hle := (isLatin1_iff ch).mp ((charType_eq_latin1_iff ch).mp (hall ch hch))
    rw [BitVec.toNat_setWidth]
    omega
  · exact h.decodeToUtf16_eq [] dst hlen

/-- The encoding of `aé😀`: seven bytes, four code units. -/
theorem utf8_correct_supplementary :
    ∃ bytes cps, bytes = [0x61, 0xC3, 0xA9, 0xF0, 0x9F, 0x98, 0x80] ∧
      decodeAll bytes = some cps ∧ codeUnitCount bytes = (4, .supplementary) ∧
      decodeToUtf16 bytes (List.replicate 4 0) 0 = some (true, [0x61, 0xE9, 0xD83D, 0xDE00]) := by
  have hdecode := (utf8_correct.1 ['a', 'é', '😀']).2
  obtain ⟨hcount, -, hutf16⟩ := (utf8_correct.2 _).2 _ hdecode
  exact ⟨_, _, by decide, hdecode, hcount.trans (by decide),
    (hutf16 (replicate 4 0) (by decide)).trans (by decide)⟩

end DartVm.Unicode
