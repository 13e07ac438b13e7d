import DartVm.Unicode.Utf8
import Mathlib.Tactic.IntervalCases

/-! # Sequences of UTF-8

The byte sequences that `Decode` accepts: what they look like, and that `Encode` produces one for
each code point.

* `IsSequence`: the sequence of a code point.
* `decode_cases`: what `Decode` accepts.
* `isSequence_encode`: what `Encode` produces. -/

namespace DartVm.Unicode

open List

/-! ## Machine arithmetic -/

@[simp] theorem toNat_setWidth_byte (byte : Byte) : (byte.setWidth 32).toNat = byte.toNat := by
  rw [BitVec.toNat_setWidth, Nat.mod_eq_of_lt (by have := byte.isLt; omega)]

/-- Bytes that are not ASCII. -/
theorem ge_0x80_iff (byte : Byte) : (byte.setWidth 32 : CodePoint) ≥ 0x80 ↔ 0x80 ≤ byte.toNat := by
  rfl

/-- The sign of a code point. -/
theorem toInt_cases (ch : CodePoint) :
    ch.toNat < 2 ^ 31 ∧ ch.toInt = ch.toNat ∨ 2 ^ 31 ≤ ch.toNat ∧ ch.toInt < 0 := by
  rw [BitVec.toInt_eq_toNat_cond]
  split
  · exact .inl ⟨by omega, rfl⟩
  · exact .inr ⟨by omega, by omega⟩

/-- The code points that are out of range. -/
theorem isOutOfRange_iff (ch : CodePoint) : isOutOfRange ch ↔ 0x10FFFF < ch.toNat := by
  simp only [isOutOfRange, Bool.or_eq_true, decide_eq_true_eq]
  unfold kMaxCodePoint
  rcases toInt_cases ch with ⟨h, heq⟩ | ⟨h, hneg⟩ <;> omega

/-- The code points of Latin-1. -/
theorem isLatin1_iff (ch : CodePoint) : isLatin1 ch ↔ ch.toNat ≤ 0xFF := by
  simp only [isLatin1, Bool.and_eq_true, decide_eq_true_eq]
  rcases toInt_cases ch with ⟨h, heq⟩ | ⟨h, hneg⟩ <;> omega

/-- Trail bytes, as a range. -/
theorem isTrailByte_iff {byte : Byte} :
    isTrailByte byte ↔ 0x80 ≤ byte.toNat ∧ byte.toNat < 0xC0 := by
  revert byte
  decide +kernel

/-- The lead bytes of Latin-1, as a range. -/
theorem isLatin1SequenceStart_iff (byte : Byte) :
    isLatin1SequenceStart byte ↔ byte.toNat ≤ 0xC3 := by
  simp [isLatin1SequenceStart, BitVec.le_def]

/-- The lead bytes of supplementary code points, as a range. -/
theorem isSupplementarySequenceStart_iff (byte : Byte) :
    isSupplementarySequenceStart byte ↔ 0xF0 ≤ byte.toNat := by
  simp [isSupplementarySequenceStart, BitVec.le_def]

/-- The least lead byte of `n` trail bytes. -/
def leadMark (n : ℕ) : ℕ := 256 - 2 ^ (7 - n)

/-- A lead byte of one to three trail bytes. -/
abbrev IsLead (lead : Byte) (n : ℕ) : Prop :=
  (1 ≤ n ∧ n ≤ 3) ∧ leadMark n ≤ lead.toNat ∧ lead.toNat < leadMark (n + 1)

/-- The table of trail bytes: ASCII, trail bytes, leads of one to three, and the long forms. -/
theorem kTrailBytes_cases (byte : Byte) :
    byte.toNat < 0x80 ∨ kTrailBytes.getD byte.toNat 0 = 0 ∨
      (∃ n < 4, IsLead byte n ∧ kTrailBytes.getD byte.toNat 0 = n + 1) ∨
      kTrailBytes.getD byte.toNat 0 = 5 ∨ kTrailBytes.getD byte.toNat 0 = 6 := by
  revert byte
  decide +kernel

variable {n : ℕ}

/-- The entry of a lead byte. -/
theorem IsLead.kTrailBytes_eq {lead : Byte} (h : IsLead lead n) :
    kTrailBytes.getD lead.toNat 0 = n + 1 := by
  have hall : ∀ n < 4, ∀ lead, IsLead lead n → kTrailBytes.getD lead.toNat 0 = n + 1 := by
    decide +kernel
  exact hall n (by omega) lead h

/-- Lead bytes are not ASCII. -/
theorem IsLead.ge {lead : Byte} (h : IsLead lead n) : 0xC0 ≤ lead.toNat := by
  obtain ⟨⟨hpos, hle⟩, hlo, -⟩ := h
  interval_cases n <;> exact le_trans (by decide) hlo

/-! ## Sequences -/

/-- **Sequence of UTF-8**: a lead byte with its trail bytes, and their code point, whose ranges are
those of the lead byte. -/
structure IsSequence (lead : Byte) (trail : List Byte) (ch : CodePoint) : Prop where
  lead_start : isTrailByte lead = false
  trail_bytes : ∀ byte ∈ trail, isTrailByte byte
  latin1 : isLatin1SequenceStart lead ↔ ch.toNat ≤ 0xFF
  supplementary : isSupplementarySequenceStart lead ↔ 0x10000 ≤ ch.toNat
  inRange : ch.toNat ≤ 0x10FFFF
  decode_eq : ∀ rest, decode (lead :: trail ++ rest) = (ch, trail.length + 1)

variable {ch : CodePoint} {lead : Byte} {trail : List Byte}

/-- A code point is never the error value. -/
theorem IsSequence.ne_neg_one (h : IsSequence lead trail ch) : ch ≠ -1 := by
  rintro rfl
  exact absurd h.inRange (by decide)

variable {byte : Byte} {isMalformed : Bool}

/-- ASCII is decoded to itself. -/
theorem decode_ascii (h : byte.toNat < 0x80) (rest : List Byte) :
    decode (byte :: rest) = (byte.setWidth 32, 1) := by
  rw [decode, headD_cons, if_neg (by rw [ge_0x80_iff]; omega)]

/-- Decoding a longer sequence: the trail bytes are read and checked. -/
theorem decode_of_ge (h : 0x80 ≤ byte.toNat) (rest : List Byte) :
    decode (byte :: rest) =
      match readTrailBytes (byte :: rest) (kTrailBytes.getD byte.toNat 0) (byte.setWidth 32) with
      | none => (-1, 0)
      | some (isMalformed, ch) =>
        if isWellFormed isMalformed (max 1 (kTrailBytes.getD byte.toNat 0))
            (kTrailBytes.getD byte.toNat 0) (ch - kMagicBits.getD (kTrailBytes.getD byte.toNat 0) 0)
        then (ch - kMagicBits.getD (kTrailBytes.getD byte.toNat 0) 0,
          max 1 (kTrailBytes.getD byte.toNat 0))
        else (-1, 0) := by
  rw [decode, if_pos (by rw [ge_0x80_iff]; exact h)]
  all_goals rfl

/-- A byte of ASCII is a sequence. -/
theorem isSequence_ascii (h : byte.toNat < 0x80) :
    IsSequence byte [] (byte.setWidth 32) where
  lead_start := by
    rw [Bool.eq_false_iff, ne_eq, isTrailByte_iff]
    omega
  trail_bytes := by simp
  latin1 := by rw [isLatin1SequenceStart_iff, toNat_setWidth_byte]; omega
  supplementary := by rw [isSupplementarySequenceStart_iff, toNat_setWidth_byte]; omega
  inRange := by rw [toNat_setWidth_byte]; omega
  decode_eq rest := decode_ascii h rest

/-- The well-formedness test in numbers, for sequences of two to four bytes. -/
theorem isWellFormed_iff (hn : 2 ≤ n) (hn' : n ≤ 4) :
    isWellFormed isMalformed (max 1 n) n ch ↔
      isMalformed = false ∧ ch.toNat ≤ 0x10FFFF ∧
        (kOverlongMinimum.getD n 0).toNat ≤ ch.toNat := by
  rw [max_eq_right (by omega)]
  simp only [isWellFormed, beq_self_eq_true, Bool.and_true, Bool.and_eq_true, Bool.not_eq_true',
    ← Bool.not_eq_true, isOutOfRange_iff, isNonShortestForm, decide_eq_true_eq, BitVec.lt_def]
  simp [and_assoc]

/-- The long forms are not well formed. -/
theorem isWellFormed_long (ch : CodePoint) (hn : n = 5 ∨ n = 6) :
    isWellFormed isMalformed (max 1 n) n ch = false := by
  rw [Bool.eq_false_iff]
  intro h
  rw [Nat.max_eq_right (by omega)] at h
  simp only [isWellFormed, Bool.and_eq_true, Bool.not_eq_true', ← Bool.not_eq_true,
    isOutOfRange_iff, isNonShortestForm, decide_eq_true_eq, BitVec.lt_def] at h
  have hmin : (kOverlongMinimum.getD n 0).toNat = 0xFFFFFFFF := by
    rcases hn with rfl | rfl <;> rfl
  omega

/-! ## Trail bytes -/

/-- The loop over the trail bytes, for one of them. -/
def addTrailByte (st : Bool × CodePoint) (codeUnit : Byte) : Bool × CodePoint :=
  (st.1 || !isTrailByte codeUnit, (st.2 <<< 6) + codeUnit.setWidth 32)

/-- Reading trail bytes fails exactly if there are too few. -/
theorem foldlM_trail (bytes : List Byte) (m : ℕ) :
    ∀ (k : ℕ) (st : Bool × CodePoint),
      ((List.range' k m).foldlM (fun st j => (bytes[j]?).map (addTrailByte st)) st) =
        if m ≤ (bytes.drop k).length then some (((bytes.drop k).take m).foldl addTrailByte st)
        else none := by
  induction m with
  | zero => intro k st; simp
  | succ m ih =>
    intro k st
    rw [range'_succ, foldlM_cons]
    cases hk : bytes[k]? with
    | none =>
      have hlen : bytes.length ≤ k := List.getElem?_eq_none_iff.mp hk
      rw [if_neg (by rw [length_drop]; omega)]
      rfl
    | some codeUnit =>
      obtain ⟨hlt, rfl⟩ := List.getElem?_eq_some_iff.mp hk
      have hdrop : bytes.drop k = bytes[k] :: bytes.drop (k + 1) := drop_eq_getElem_cons hlt
      rw [hdrop, length_cons, take_succ_cons, foldl_cons]
      simp [ih]

/-- The trail bytes that are read, as a list. -/
theorem readTrailBytes_eq (lead : Byte) (rest : List Byte) (n : ℕ) (ch : CodePoint) :
    readTrailBytes (lead :: rest) n ch =
      if n - 1 ≤ rest.length then some ((rest.take (n - 1)).foldl addTrailByte (false, ch))
      else none := by
  have hstep : readTrailBytes (lead :: rest) n ch =
      (range' 1 (n - 1)).foldlM (fun st j => ((lead :: rest)[j]?).map (addTrailByte st))
        (false, ch) := by
    unfold readTrailBytes
    congr 1
    funext st j
    cases (lead :: rest)[j]? <;> rfl
  rw [hstep, foldlM_trail]
  rfl

/-- Adding up trail bytes, with the check of each. -/
theorem foldl_addTrailByte (trail : List Byte) (isMalformed : Bool) (ch : CodePoint) :
    trail.foldl addTrailByte (isMalformed, ch) =
      (isMalformed || trail.any fun t => !isTrailByte t,
        trail.foldl (fun (ch : CodePoint) t => (ch <<< 6) + t.setWidth 32) ch) := by
  induction trail generalizing isMalformed ch with
  | nil => simp
  | cons t trail ih => simp [addTrailByte, ih, Bool.or_assoc]

/-- The bits of a sequence, without those that mark its bytes. -/
def codeBits (lead : Byte) (trail : List Byte) : CodePoint :=
  trail.foldl (fun (ch : CodePoint) t => (ch <<< 6) + t.setWidth 32) (lead.setWidth 32) -
    kMagicBits.getD (trail.length + 1) 0

/-- Decoding a sequence whose trail bytes are all there. -/
theorem decode_append (h : 0x80 ≤ lead.toNat)
    (hn : kTrailBytes.getD lead.toNat 0 = trail.length + 1) (rest : List Byte) :
    decode (lead :: trail ++ rest) =
      if isWellFormed (trail.any fun t => !isTrailByte t) (max 1 (trail.length + 1))
          (trail.length + 1) (codeBits lead trail)
      then (codeBits lead trail, trail.length + 1) else (-1, 0) := by
  rw [cons_append, decode_of_ge h, hn, readTrailBytes_eq, if_pos (by simp)]
  simp only [Nat.add_sub_cancel, take_left', foldl_addTrailByte, Bool.false_or]
  rfl

variable {rest : List Byte}

/-- A truncated sequence is an error. -/
theorem decode_truncated (h : 0x80 ≤ lead.toNat)
    (hn : rest.length + 1 < kTrailBytes.getD lead.toNat 0) : decode (lead :: rest) = (-1, 0) := by
  rw [decode_of_ge h, readTrailBytes_eq, if_neg (by omega)]

/-! ## The code point of a sequence -/

section Accepted

variable {lead : Byte} {trail : List Byte}

/-- The bits of the trail bytes, after those of `v`. -/
def trailValue (v : ℕ) (trail : List Byte) : ℕ := trail.foldl (fun v t => v * 64 + t.toNat % 64) v

/-- The marks of the bytes stand beside the bits of the sequence. -/
theorem toNat_foldl_trail (htrail : ∀ t ∈ trail, isTrailByte t) {v m : ℕ} (h : ch.toNat = v + m)
    (hlt : (v + m + 4) * 64 ^ trail.length ≤ 2 ^ 32) :
    (trail.foldl (fun (ch : CodePoint) t => (ch <<< 6) + t.setWidth 32) ch).toNat =
      trailValue v trail + (fun m => m * 64 + 0x80)^[trail.length] m := by
  induction trail generalizing ch v m with
  | nil => exact h
  | cons t trail ih =>
    obtain ⟨ht, htrail⟩ := forall_mem_cons.mp htrail
    rw [isTrailByte_iff] at ht
    have hpow : 1 ≤ 64 ^ trail.length := Nat.one_le_pow _ _ (by decide)
    rw [length_cons, pow_succ', ← mul_assoc] at hlt
    have hle := (Nat.le_mul_of_pos_right ((v + m + 4) * 64) hpow).trans hlt
    refine ih htrail (v := v * 64 + t.toNat % 64) (m := m * 64 + 0x80) ?_
      (le_trans (Nat.mul_le_mul_right _ ?_) hlt)
    · rw [BitVec.toNat_add, BitVec.toNat_shiftLeft, toNat_setWidth_byte, h]
      omega
    · omega

/-- The value of a sequence, by its lead and the number of trail bytes. -/
theorem trailValue_bounds (v : ℕ) (trail : List Byte) :
    v * 64 ^ trail.length ≤ trailValue v trail ∧
      trailValue v trail < (v + 1) * 64 ^ trail.length := by
  induction trail generalizing v with
  | nil => simp [trailValue]
  | cons t trail ih =>
    obtain ⟨hlo, hhi⟩ := ih (v * 64 + t.toNat % 64)
    rw [length_cons, pow_succ', ← mul_assoc, ← mul_assoc]
    exact ⟨le_trans (Nat.mul_le_mul_right _ (by omega)) hlo,
      lt_of_lt_of_le hhi (Nat.mul_le_mul_right _ (by omega))⟩

/-- The magic bits remove the marks of the lead and of the trail bytes. -/
theorem toNat_codeBits (hlead : IsLead lead trail.length) (htrail : ∀ t ∈ trail, isTrailByte t) :
    (codeBits lead trail).toNat = trailValue (lead.toNat - leadMark trail.length) trail := by
  obtain ⟨⟨hpos, hle⟩, hlo, hhi⟩ := hlead
  have hmagic : ∀ n < 4, 1 ≤ n → (kMagicBits.getD (n + 1) 0).toNat =
      (fun m => m * 64 + 0x80)^[n] (leadMark n) := by decide
  have hpow : 64 ^ trail.length ≤ 64 ^ 3 := Nat.pow_le_pow_right (by decide) hle
  have hbits := toNat_foldl_trail htrail
    (show (lead.setWidth 32).toNat = lead.toNat - leadMark trail.length + leadMark trail.length by
      rw [toNat_setWidth_byte]; omega)
    ((Nat.mul_le_mul (show _ ≤ 260 by omega) hpow).trans (by decide))
  rw [← hmagic _ (by omega) hpos] at hbits
  rw [codeBits, BitVec.toNat_sub, hbits]
  omega

/-! ## What `Decode` accepts -/

/-- A sequence in shortest form. -/
theorem isSequence_of_lead (hlead : IsLead lead trail.length) (htrail : ∀ t ∈ trail, isTrailByte t)
    (hch : ch.toNat = trailValue (lead.toNat - leadMark trail.length) trail)
    (hmin : (kOverlongMinimum.getD (trail.length + 1) 0).toNat ≤ ch.toNat)
    (hrange : ch.toNat ≤ 0x10FFFF) : IsSequence lead trail ch := by
  have hge := hlead.ge
  have hbounds := trailValue_bounds (lead.toNat - leadMark trail.length) trail
  obtain rfl := BitVec.eq_of_toNat_eq (hch.trans (toNat_codeBits hlead htrail).symm)
  have hranges : (lead.toNat ≤ 0xC3 ↔ (codeBits lead trail).toNat ≤ 0xFF) ∧
      (0xF0 ≤ lead.toNat ↔ 0x10000 ≤ (codeBits lead trail).toNat) := by
    obtain ⟨⟨hpos, hle⟩, hlo, hhi⟩ := hlead
    generalize (codeBits lead trail).toNat = c, trail.length = n at *
    interval_cases n <;> simp [leadMark, kOverlongMinimum] at * <;> omega
  exact {
    lead_start := by
      rw [Bool.eq_false_iff, ne_eq, isTrailByte_iff]
      omega
    trail_bytes := htrail
    latin1 := by rw [isLatin1SequenceStart_iff]; exact hranges.1
    supplementary := by rw [isSupplementarySequenceStart_iff]; exact hranges.2
    inRange := hrange
    decode_eq rest := by
      have hany : (trail.any fun t => !isTrailByte t) = false := by
        rw [any_eq_false]
        intro t ht
        simp [htrail t ht]
      rw [decode_append (by omega) hlead.kTrailBytes_eq, if_pos ((isWellFormed_iff
        (Nat.succ_le_succ hlead.1.1) (Nat.succ_le_succ hlead.1.2)).mpr ⟨hany, hrange, hmin⟩)] }

/-- **What `Decode` accepts** is a sequence. -/
theorem decode_cases (h : (decode (lead :: rest)).1 ≠ -1) :
    ∃ trail rest' ch, rest = trail ++ rest' ∧ IsSequence lead trail ch := by
  by_cases hascii : lead.toNat < 0x80
  · exact ⟨[], rest, _, rfl, isSequence_ascii hascii⟩
  rcases (kTrailBytes_cases lead).resolve_left hascii with hn | ⟨n, -, hlead, hn⟩ | hn
  · -- No sequence starts with this byte.
    have hfail : decode (lead :: rest) = (-1, 0) := by
      rw [decode_of_ge (by omega), hn, readTrailBytes_eq, if_pos (by omega)]
      rfl
    exact absurd (by rw [hfail]) h
  · by_cases hlen : rest.length < n
    · rw [decode_truncated (by omega) (by omega)] at h
      exact absurd rfl h
    have hsplit : rest.take n ++ rest.drop n = rest := take_append_drop _ _
    have htake : (rest.take n).length = n := by
      rw [length_take]
      omega
    rw [← hsplit, ← cons_append, decode_append (by omega) (by omega)] at h
    split at h
    next hwell =>
      rw [isWellFormed_iff (by omega) (by omega)] at hwell
      obtain ⟨hany, hrange, hmin⟩ := hwell
      rw [← htake] at hlead
      have htrail : ∀ t ∈ rest.take n, isTrailByte t := fun t ht => by
        simpa using any_eq_false.mp hany t ht
      exact ⟨_, _, _, hsplit.symm,
        isSequence_of_lead hlead htrail (toNat_codeBits hlead htrail) hmin hrange⟩
    next => exact absurd rfl h
  · -- Sequences of five and six bytes are never in shortest form.
    have hfail : decode (lead :: rest) = (-1, 0) := by
      rw [decode_of_ge (by omega)]
      split
      · rfl
      · rw [isWellFormed_long _ hn]
        rfl
    exact absurd (by rw [hfail]) h

end Accepted

/-! ## What `Encode` produces -/

section Encoded

/-- A trail byte carries the low six bits; the store into a byte drops what `kMask` leaves above. -/
theorem toNat_trailByte (ch : CodePoint) :
    ((0x80 ||| (ch &&& kMask)).setWidth 8).toNat = 0x80 + ch.toNat % 64 := by
  have hbyte : ∀ byte : Byte, (0x80 ||| (byte &&& 0xBF)).toNat = 0x80 + byte.toNat % 64 := by
    decide +kernel
  rw [BitVec.setWidth_or, BitVec.setWidth_and]
  change (0x80 ||| (ch.setWidth 8 &&& 0xBF)).toNat = _
  rw [hbyte, BitVec.toNat_setWidth]
  omega

/-- The encoder writes lead bytes. -/
theorem isLead_leadByte (hn : 1 ≤ n ∧ n ≤ 3) (hlt : ch.toNat < 2 ^ (6 - n)) :
    IsLead ((BitVec.ofNat 32 (leadMark n) ||| ch).setWidth 8) n ∧
      ((BitVec.ofNat 32 (leadMark n) ||| ch).setWidth 8).toNat - leadMark n = ch.toNat := by
  have hbyte : ∀ n < 4, 1 ≤ n → ∀ byte : Byte, byte.toNat < 2 ^ (6 - n) →
      IsLead ((BitVec.ofNat 32 (leadMark n)).setWidth 8 ||| byte) n ∧
        ((BitVec.ofNat 32 (leadMark n)).setWidth 8 ||| byte).toNat - leadMark n = byte.toNat := by
    decide +kernel
  have hpow : 2 ^ (6 - n) ≤ 2 ^ 6 := Nat.pow_le_pow_right (by decide) (by omega)
  have hwidth : (ch.setWidth 8 : Byte).toNat = ch.toNat := by
    rw [BitVec.toNat_setWidth]
    omega
  rw [BitVec.setWidth_or, ← hwidth]
  exact hbyte n (by omega) hn.1 _ (by rw [hwidth]; exact hlt)

/-- The bytes that are stored for the parts `v` and `l` of a code point. -/
theorem isSequence_bytes {v : CodePoint} {l : List CodePoint} (hn : 1 ≤ l.length ∧ l.length ≤ 3)
    (hlt : v.toNat < 2 ^ (6 - l.length))
    (hch : ch.toNat = l.foldl (fun v c => v * 64 + c.toNat % 64) v.toNat)
    (hmin : (kOverlongMinimum.getD (l.length + 1) 0).toNat ≤ ch.toNat)
    (hrange : ch.toNat ≤ 0x10FFFF) :
    IsSequence ((BitVec.ofNat 32 (leadMark l.length) ||| v).setWidth 8)
      (l.map fun c => (0x80 ||| (c &&& kMask)).setWidth 8) ch := by
  obtain ⟨hlead, hvalue⟩ := isLead_leadByte hn hlt
  refine isSequence_of_lead (by rwa [length_map]) ?_ ?_ (by rwa [length_map]) hrange
  · simp only [mem_map]
    rintro _ ⟨c, -, rfl⟩
    rw [isTrailByte_iff, toNat_trailByte]
    omega
  · rw [length_map, hvalue, trailValue, foldl_map, hch]
    simp only [toNat_trailByte, Nat.add_mod, Nat.mod_mod]
    norm_num

/-- Code points are not negative, so that shifting divides. -/
theorem toNat_sshiftRight (h : ch.toNat ≤ 0x10FFFF) (k : ℕ) :
    (ch.sshiftRight k).toNat = ch.toNat / 2 ^ k := by
  have hmsb : ch.msb = false := by
    rw [BitVec.msb_eq_false_iff_two_mul_lt]
    omega
  rw [BitVec.sshiftRight_eq_of_msb_false hmsb, BitVec.toNat_ushiftRight, Nat.shiftRight_eq_div_pow]

/-- **What `Encode` produces** for a code point in range is its sequence. -/
theorem isSequence_encode (h : ch.toNat ≤ 0x10FFFF) :
    ∃ lead trail, encode ch = lead :: trail ∧ IsSequence lead trail ch := by
  have hint : ch.toInt = ch.toNat := by
    rcases toInt_cases ch with ⟨-, heq⟩ | ⟨hge, -⟩
    · exact heq
    · omega
  have h6 : (ch.sshiftRight 6).toNat = ch.toNat / 64 := toNat_sshiftRight h 6
  have h12 : (ch.sshiftRight 12).toNat = ch.toNat / 4096 := toNat_sshiftRight h 12
  have h18 : (ch.sshiftRight 18).toNat = ch.toNat / 262144 := toNat_sshiftRight h 18
  rw [encode]
  -- One case for each number of bytes.
  by_cases h1 : ch.toNat ≤ 0x7F
  · rw [if_pos (by omega)]
    have hbyte : (ch.setWidth 8 : Byte).toNat = ch.toNat := by
      rw [BitVec.toNat_setWidth]
      omega
    have hch : ((ch.setWidth 8 : Byte).setWidth 32 : CodePoint) = ch :=
      BitVec.eq_of_toNat_eq (by rw [toNat_setWidth_byte, hbyte])
    have hseq := isSequence_ascii (show (ch.setWidth 8 : Byte).toNat < 0x80 by omega)
    rw [hch] at hseq
    exact ⟨_, _, rfl, hseq⟩
  rw [if_neg (by omega)]
  by_cases h2 : ch.toNat ≤ 0x7FF
  · rw [if_pos (by omega)]
    exact ⟨_, _, rfl, isSequence_bytes (v := ch.sshiftRight 6) (l := [ch]) (by simp)
      (show _ < 0x20 by omega) (by simp only [foldl_cons, foldl_nil]; omega)
        (show 0x80 ≤ _ by omega) h⟩
  rw [if_neg (by omega)]
  by_cases h3 : ch.toNat ≤ 0xFFFF
  · rw [if_pos (by omega)]
    exact ⟨_, _, rfl,
      isSequence_bytes (v := ch.sshiftRight 12) (l := [ch.sshiftRight 6, ch]) (by simp)
      (show _ < 0x10 by omega) (by simp only [foldl_cons, foldl_nil]; omega)
        (show 0x800 ≤ _ by omega) h⟩
  · rw [if_neg (by omega)]
    exact ⟨_, _, rfl, isSequence_bytes (v := ch.sshiftRight 18)
      (l := [ch.sshiftRight 12, ch.sshiftRight 6, ch]) (by simp) (show _ < 0x08 by omega)
      (by simp only [foldl_cons, foldl_nil]; omega) (show 0x10000 ≤ _ by omega) h⟩

end Encoded

end DartVm.Unicode
