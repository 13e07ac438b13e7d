import DartVm.DataStream.Streams
import Mathlib.Tactic.Ring
import Mathlib.Tactic.Zify
import Mathlib.Tactic.Positivity

/-! # What is read is what was written

A reader collects a value from its low bits on; `IsLow s v r` says that `r` holds the low `s` bits
of `v`.  `Marked` and `Parts` describe the bytes of the two families of encodings.  Every writer
produces such bytes, and every reader of the family, looping or unrolled, gets the value back from
them.

* `write_marked`, `writeUnsigned_marked`: what the writers produce.
* `Encoding.read_write`: one value.
* `readAll_writeAll`: any sequence of values. -/

namespace DartVm.DataStream

open List Option Nat

variable {w s j : ℕ} {v r x : BitVec w} {d b marker : Byte} {bytes rest : List Byte}
  {i fuel e : ℕ}

/-! ## Collecting bits -/

/-- `r` holds the low `s` bits of `v`. -/
def IsLow (s : ℕ) (v r : BitVec w) : Prop :=
  ∀ i < w, r.getLsbD i = (decide (i < s) && v.getLsbD i)

/-- The low seven bits of the byte are those of `v` from bit `s` on. -/
def HasBits (s : ℕ) (v : BitVec w) (d : Byte) : Prop :=
  ∀ j < kDataBitsPerByte, s + j < w → d.getLsbD j = v.getLsbD (s + j)

/-- Reading the bytes, whatever follows them, gives the value and stops where they end. -/
def ReadsBack {α : Type} (read : ReadStream → Option (α × ReadStream)) (v : α)
    (bytes : List Byte) : Prop := ∀ position rest,
  read ⟨position, bytes ++ rest⟩ = some (v, ⟨position + bytes.length, rest⟩)

/-- Before the first byte nothing has been read. -/
theorem isLow_zero : IsLow 0 v 0 := by
  intro i hi
  simp

/-- One more data byte puts seven more bits into the result. -/
theorem IsLow.step (h : IsLow s v r) (hd : HasBits s v d) (hdata : d.getLsbD 7 = false) :
    IsLow (s + kDataBitsPerByte) v (r ||| (d.setWidth w <<< s)) := by
  intro i hi
  rw [BitVec.getLsbD_or, h i hi, BitVec.getLsbD_shiftLeft]
  by_cases hlow : i < s
  · simp [hlow, Nat.lt_add_right]
  have hsub : i - s < w := by omega
  by_cases hmid : i < s + kDataBitsPerByte
  · have hbit := hd (i - s) (by omega) (by omega)
    rw [show s + (i - s) = i by omega] at hbit
    simp [hi, hlow, hmid, hsub, hbit]
  -- Bit seven is not data, and there are no more.
  have hhigh : d.getLsbD (i - s) = false := by
    unfold kDataBitsPerByte at hmid
    by_cases h7 : i - s = 7
    · rw [h7, hdata]
    · exact BitVec.getLsbD_of_ge _ _ (by omega)
  simp [hlow, hmid, hhigh]

/-- The last byte supplies all remaining bits. -/
theorem IsLow.finish (h : IsLow s v r) (hx : ∀ i, s + i < w → x.getLsbD i = v.getLsbD (s + i)) :
    r ||| (x <<< s) = v := by
  apply BitVec.eq_of_getLsbD_eq
  intro i hi
  rw [BitVec.getLsbD_or, h i hi, BitVec.getLsbD_shiftLeft]
  by_cases hlow : i < s
  · simp [hlow]
  · have hbit := hx (i - s) (by omega)
    rw [show s + (i - s) = i by omega] at hbit
    simp [hi, hlow, hbit]

/-- Nothing is missing if the remaining bits are zero. -/
theorem IsLow.eq (h : IsLow s v r) (hv : ∀ i, s ≤ i → i < w → v.getLsbD i = false) : r = v := by
  apply BitVec.eq_of_getLsbD_eq
  intro i hi
  rw [h i hi]
  by_cases hlow : i < s
  · simp [hlow]
  · simp [hlow, hv i (not_lt.mp hlow) hi]

/-- The first data byte supplies the seven lowest bits. -/
theorem HasBits.isLow (hd : HasBits 0 v d) (hdata : d.getLsbD 7 = false) :
    IsLow kDataBitsPerByte v (d.setWidth w) := by
  simpa using isLow_zero.step hd hdata

/-- A value of one byte is read at once. -/
theorem eq_of_bits (hx : ∀ i, 0 + i < w → x.getLsbD i = v.getLsbD (0 + i)) : x = v := by
  simpa using isLow_zero.finish hx

/-- Data bytes have their top bit clear. -/
theorem getLsbD_seven_iff : d.toNat ≤ kMaxUnsignedDataPerByte ↔ d.getLsbD 7 = false := by
  revert d
  decide +kernel

/-- The mask for more data tests the top bit. -/
theorem more_iff : (b &&& kMoreDataMask != 0) = b.getLsbD 7 := by
  revert b
  decide +kernel

/-- The mask for the sign tests the bit below it. -/
theorem sign_iff : (b &&& kSignMask != 0) = b.getLsbD 6 := by
  revert b
  decide +kernel

/-! ## Encodings with a marked last byte -/

/-- The bytes encode `v` from bit `s` on, with a marker in the last one. -/
inductive Marked (marker : Byte) (v : BitVec w) : ℕ → List Byte → Prop
  /-- The last byte holds all bits that are left. -/
  | last {s : ℕ} {b : Byte} (hmarked : kMaxUnsignedDataPerByte < b.toNat)
      (hbits : ∀ i, s + i < w →
        (b.setWidth w - marker.setWidth w).getLsbD i = v.getLsbD (s + i)) : Marked marker v s [b]
  | more {s : ℕ} {d : Byte} {bytes : List Byte} (hdata : d.toNat ≤ kMaxUnsignedDataPerByte)
      (hbits : HasBits s v d) (hlt : s + kDataBitsPerByte < w)
      (hrest : Marked marker v (s + kDataBitsPerByte) bytes) : Marked marker v s (d :: bytes)

/-- **The loop of a read**: it collects data bytes up to the marked one, by induction over the
bytes. -/
theorem readMore_of_marked (h : Marked marker v (s + kDataBitsPerByte) bytes) (hr : IsLow s v r)
    (hdata : d.toNat ≤ kMaxUnsignedDataPerByte) (hd : HasBits s v d) (position : ℕ) :
    readMore marker r s d position (bytes ++ rest) =
      some (v, ⟨position + bytes.length, rest⟩) := by
  induction bytes generalizing s r d position with
  | nil => cases h
  | cons b bytes ih =>
    have hlow := hr.step hd (getLsbD_seven_iff.mp hdata)
    cases h with
    | last hmarked hbits =>
      simp only [singleton_append, readMore, if_neg (not_le.mpr hmarked)]
      rw [hlow.finish hbits]
      rfl
    | more hdata' hbits _ hrest =>
      simp only [cons_append, readMore, if_pos hdata']
      rw [ih hrest hlow hdata' hbits, length_cons]
      congr 3
      omega

/-- Marked bytes are read back. -/
theorem readMarked_of_marked (h : Marked marker v 0 bytes) :
    ReadsBack (readMarked marker) v bytes := by
  intro position rest
  cases h with
  | last hmarked hbits =>
    simp only [readMarked, readByte, singleton_append, bind_eq_bind, bind_some, if_pos hmarked]
    rw [eq_of_bits hbits]
    rfl
  | more hdata hbits _ hrest =>
    simp only [readMarked, readByte, cons_append, bind_eq_bind, bind_some,
      if_neg (not_lt.mpr hdata)]
    rw [readMore_of_marked hrest isLow_zero hdata hbits, length_cons]
    congr 3
    omega

/-- The unrolled bodies collect the value, if the last of them reaches its end. -/
theorem unrolledFrom_of_marked (k : ℕ) (h : Marked marker v s bytes) (hr : IsLow s v r)
    (hend : w ≤ s + kDataBitsPerByte * k + kDataBitsPerByte) :
    ReadsBack (unrolledFrom marker (s + kDataBitsPerByte * k)
      (List.range' s k kDataBitsPerByte) r) v bytes := by
  intro position rest
  induction k generalizing s r bytes position with
  | zero =>
    cases h with
    | last hmarked hbits =>
      simp only [range'_zero, unrolledFrom, readByte, singleton_append,
        bind_eq_bind, bind_some, mul_zero, add_zero]
      rw [hr.finish hbits]
      rfl
    | more _ _ hlt _ => omega
  | succ k ih =>
    rw [range'_succ]
    cases h with
    | last hmarked hbits =>
      simp only [unrolledFrom, readByte, singleton_append, bind_eq_bind, bind_some, if_pos hmarked]
      rw [hr.finish hbits]
      rfl
    | more hdata hbits _ hrest =>
      simp only [unrolledFrom, readByte, cons_append, bind_eq_bind,
        bind_some, if_neg (not_lt.mpr hdata)]
      have hlow := hr.step hbits (getLsbD_seven_iff.mp hdata)
      have hnext := ih hrest hlow (by rw [mul_succ] at hend; omega) (position + 1)
      rw [show s + kDataBitsPerByte + kDataBitsPerByte * k =
        s + kDataBitsPerByte * (k + 1) by rw [mul_succ]; omega] at hnext
      rw [hnext, length_cons]
      congr 3
      omega

/-- The unrolled reads, too, read marked bytes back, as long as the value has no more bits than they
handle. -/
theorem unrolled_of_marked (k : ℕ) (h : Marked marker v 0 bytes)
    (hend : w ≤ kDataBitsPerByte + kDataBitsPerByte * k + kDataBitsPerByte) :
    ReadsBack (unrolled marker (List.range' kDataBitsPerByte k kDataBitsPerByte)
      (kDataBitsPerByte + kDataBitsPerByte * k)) v bytes := by
  intro position rest
  cases h with
  | last hmarked hbits =>
    simp only [unrolled, readByte, singleton_append, bind_eq_bind, bind_some, if_pos hmarked]
    rw [eq_of_bits hbits]
    rfl
  | more hdata hbits _ hrest =>
    simp only [unrolled, readByte, cons_append, bind_eq_bind, bind_some,
      if_neg (not_lt.mpr hdata)]
    have hlow := hbits.isLow (getLsbD_seven_iff.mp hdata)
    rw [zero_add] at hrest
    rw [unrolledFrom_of_marked k hrest hlow hend, length_cons]
    congr 3
    omega

/-! ## What `Write` and `WriteUnsigned` produce -/

/-- The loop writes an encoding.  `rem s` is what is left of the value from bit `s` on. -/
theorem writeMarked_marked {fits : BitVec w → Bool} (shift : BitVec w → BitVec w)
    (rem : ℕ → BitVec w) (hshift : ∀ s, shift (rem s) = rem (s + kDataBitsPerByte))
    (hrem : ∀ s i, s + i < w → (rem s).getLsbD i = v.getLsbD (s + i))
    (hlast : ∀ s, fits (rem s) →
      kMaxUnsignedDataPerByte < ((rem s).setWidth 8 + marker).toNat ∧
        ((rem s).setWidth 8 + marker).setWidth w - marker.setWidth w = rem s)
    (hfits : ∀ s, w ≤ s + kDataBitsPerByte → fits (rem s)) (hpos : 0 < fuel)
    (hfuel : w ≤ s + kDataBitsPerByte * fuel) :
    ∃ bytes, writeMarked fits shift marker fuel (rem s) = some bytes ∧
      Marked marker v s bytes := by
  induction fuel generalizing s with
  | zero => omega
  | succ fuel ih =>
    rw [writeMarked]
    split_ifs with hfit
    · obtain ⟨hmarked, hvalue⟩ := hlast s hfit
      exact ⟨_, rfl, .last hmarked (by rw [hvalue]; exact hrem s)⟩
    -- Not all bits fit, so there are more than seven.
    have hlt : s + kDataBitsPerByte < w := by
      by_contra hle
      exact hfit (hfits s (not_lt.mp hle))
    rw [mul_succ] at hfuel
    have hpos' : 0 < fuel := by
      unfold kDataBitsPerByte at *
      omega
    obtain ⟨bytes, hwrite, hbytes⟩ := ih hpos' (s := s + kDataBitsPerByte) (by omega)
    rw [hshift, hwrite]
    refine ⟨_, rfl, .more (getLsbD_seven_iff.mpr ?_) (fun j hj hjw => ?_) hlt hbytes⟩
    · have h7 : BitVec.getLsbD (BitVec.ofNat w kByteMask) 7 = false := by
        rw [BitVec.getLsbD_ofNat, show kByteMask.testBit 7 = false from rfl, Bool.and_false]
      rw [BitVec.getLsbD_setWidth, BitVec.getLsbD_and, h7, Bool.and_false, Bool.and_false]
    have hmask : BitVec.getLsbD (BitVec.ofNat w kByteMask) j = true := by
      have hbit : ∀ j < kDataBitsPerByte, kByteMask.testBit j = true := by decide
      rw [BitVec.getLsbD_ofNat, hbit j hj, Bool.and_true, decide_eq_true_eq]
      omega
    have hj8 : j < 8 := lt_succ_of_lt hj
    rw [BitVec.getLsbD_setWidth, BitVec.getLsbD_and, hmask, Bool.and_true, hrem s j hjw,
      decide_eq_true hj8, Bool.true_and]

/-- A byte that holds the value `t` above the marker is marked and determines the value. -/
theorem last_byte (hw : 8 ≤ w) (marker : Byte) {t q : ℤ} (hx : (x.toNat : ℤ) = t + 2 ^ w * q)
    (h0 : kMaxUnsignedDataPerByte < t + marker.toNat) (h1 : t + marker.toNat < 256) :
    kMaxUnsignedDataPerByte < (x.setWidth 8 + marker).toNat ∧
      (x.setWidth 8 + marker).setWidth w - marker.setWidth w = x := by
  obtain ⟨k, hk⟩ : ∃ k, 2 ^ w = 256 * 2 ^ k := ⟨w - 8, by
    rw [show (256 : ℕ) = 2 ^ 8 from rfl, ← pow_add]
    congr 1
    omega⟩
  have hbyte : ((x.setWidth 8 + marker).toNat : ℤ) = t + marker.toNat := by
    have hkz : ((2 : ℤ) ^ w) = 256 * 2 ^ k := by exact_mod_cast hk
    have hxz : (x.toNat : ℤ) = t + 256 * (2 ^ k * q) := by rw [hx, hkz]; ring
    simp only [BitVec.toNat_add, BitVec.toNat_setWidth]
    omega
  refine ⟨by omega, ?_⟩
  rw [sub_eq_iff_eq_add]
  apply BitVec.eq_of_toNat_eq
  have hmarker : marker.toNat < 2 ^ w := by
    omega
  rw [BitVec.toNat_setWidth, BitVec.toNat_add x, BitVec.toNat_setWidth w, mod_eq_of_lt hmarker]
  zify
  rw [hbyte, hx, show t + 2 ^ w * q + (marker.toNat : ℤ) = t + marker.toNat + 2 ^ w * q by ring,
    Int.add_mul_emod_self_left, Int.emod_eq_of_lt (by omega)]
  have : ((2 ^ w : ℕ) : ℤ) = 2 ^ w := by push_cast; rfl
  omega

/-- What fits the last byte of a signed value. -/
theorem fitsSigned_iff : fitsSigned x ↔ -64 ≤ x.toInt ∧ x.toInt ≤ 63 := by
  rw [fitsSigned, Bool.and_eq_true, decide_eq_true_eq, decide_eq_true_eq]
  exact Iff.rfl

/-- What fits the last byte of an unsigned value. -/
theorem fitsUnsigned_iff : fitsUnsigned x ↔ x.toNat ≤ 127 := by
  rw [fitsUnsigned, decide_eq_true_eq]
  exact Iff.rfl

/-- The marker tells the last byte of a signed value from data and is taken off again. -/
theorem fitsSigned_last (hw : 8 ≤ w) (h : fitsSigned x) :
    kMaxUnsignedDataPerByte < (x.setWidth 8 + kEndByteMarker).toNat ∧
      (x.setWidth 8 + kEndByteMarker).setWidth w - kEndByteMarker.setWidth w = x := by
  rw [fitsSigned_iff] at h
  obtain ⟨q, hq⟩ : ∃ q : ℤ, (x.toNat : ℤ) = x.toInt + 2 ^ w * q := by
    rw [BitVec.toInt_eq_toNat_cond]
    split_ifs
    · exact ⟨0, by simp⟩
    · exact ⟨1, by push_cast; ring⟩
  have hmarker : (kEndByteMarker.toNat : ℤ) = 192 := rfl
  exact last_byte hw kEndByteMarker hq (by unfold kMaxUnsignedDataPerByte; omega) (by omega)

/-- The marker tells the last byte of an unsigned value from data and is taken off again. -/
theorem fitsUnsigned_last (hw : 8 ≤ w) (h : fitsUnsigned x) :
    kMaxUnsignedDataPerByte < (x.setWidth 8 + kEndUnsignedByteMarker).toNat ∧
      (x.setWidth 8 + kEndUnsignedByteMarker).setWidth w - kEndUnsignedByteMarker.setWidth w =
        x := by
  rw [fitsUnsigned_iff] at h
  have hmarker : (kEndUnsignedByteMarker.toNat : ℤ) = 128 := rfl
  have hq : (x.toNat : ℤ) = x.toNat + 2 ^ w * 0 := by simp
  exact last_byte hw kEndUnsignedByteMarker hq (by unfold kMaxUnsignedDataPerByte; omega) (by omega)

/-- After enough shifts at most seven bits are left. -/
theorem two_pow_le_of_le (h : w ≤ s + kDataBitsPerByte) : 2 ^ w ≤ 128 * 2 ^ s := by
  calc 2 ^ w ≤ 2 ^ (7 + s) := Nat.pow_le_pow_right (by norm_num) (by
        unfold kDataBitsPerByte at h
        omega)
    _ = 128 * 2 ^ s := by rw [pow_add]; norm_num

/-- When at most seven bits are left, they fit into one byte of `Write`. -/
theorem fitsSigned_sshiftRight (h : w ≤ s + kDataBitsPerByte) : fitsSigned (v.sshiftRight s) := by
  have hlo := BitVec.le_two_mul_toInt (x := v)
  have hhi := BitVec.two_mul_toInt_lt (x := v)
  have hpow : (2 : ℤ) ^ w ≤ 128 * 2 ^ s := by exact_mod_cast two_pow_le_of_le h
  have hpos : (0 : ℤ) < 2 ^ s := by positivity
  rw [fitsSigned_iff, BitVec.toInt_sshiftRight, Int.shiftRight_eq_div_pow]
  push_cast at hlo hhi ⊢
  constructor
  · rw [Int.le_ediv_iff_mul_le hpos]
    omega
  · rw [← Int.lt_add_one_iff, Int.ediv_lt_iff_lt_mul hpos]
    omega

/-- After enough shifts the rest of an unsigned value fits the last byte. -/
theorem fitsUnsigned_ushiftRight (h : w ≤ s + kDataBitsPerByte) : fitsUnsigned (v >>> s) := by
  rw [fitsUnsigned_iff, BitVec.toNat_ushiftRight, Nat.shiftRight_eq_div_pow, ← Nat.lt_succ_iff,
    Nat.div_lt_iff_lt_mul (Nat.two_pow_pos s)]
  exact lt_of_lt_of_le v.isLt (two_pow_le_of_le h)

/-- A bit of the value, found in the shifted one. -/
theorem getLsbD_sshiftRight_of_lt (hi : s + i < w) :
    (v.sshiftRight s).getLsbD i = v.getLsbD (s + i) := by
  have hiw : ¬ w ≤ i := by omega
  simp [BitVec.getLsbD_sshiftRight, hiw, hi]

/-- The width is enough fuel for the loops that write. -/
theorem fuel_suffices (hw : 8 ≤ w) : w + kDataBitsPerByte ≤ 0 + kDataBitsPerByte * w := by
  unfold kDataBitsPerByte
  omega

/-- **`Write`** produces an encoding of the value. -/
theorem write_marked (hw : 8 ≤ w) (v : BitVec w) :
    ∃ bytes, write v = some bytes ∧ Marked kEndByteMarker v 0 bytes := by
  have h := writeMarked_marked (·.sshiftRight kDataBitsPerByte) (v.sshiftRight ·)
    (fun s => BitVec.sshiftRight_add.symm) (fun s i => getLsbD_sshiftRight_of_lt)
    (fun s => fitsSigned_last hw) (fun s => fitsSigned_sshiftRight) (by omega)
    ((le_add_right _ _).trans (fuel_suffices hw))
  rwa [BitVec.sshiftRight_zero] at h

/-- **`WriteUnsigned`** produces an encoding of the value. -/
theorem writeUnsigned_marked (hw : 8 ≤ w) (v : BitVec w) :
    ∃ bytes, writeUnsigned v = some bytes ∧ Marked kEndUnsignedByteMarker v 0 bytes := by
  have h := writeMarked_marked (· >>> kDataBitsPerByte) (v >>> ·)
    (fun s => (BitVec.shiftRight_add v s _).symm) (fun s i _ => BitVec.getLsbD_ushiftRight ..)
    (fun s => fitsUnsigned_last hw) (fun s => fitsUnsigned_ushiftRight) (by omega)
    ((le_add_right _ _).trans (fuel_suffices hw))
  rwa [BitVec.ushiftRight_zero] at h

/-! ## Encodings with a bit for more data -/

/-- The bytes encode `v` from bit `s` to bit `e`, and the last of them is `b`. -/
inductive Parts (v : BitVec w) : ℕ → List Byte → ℕ → Byte → Prop
  | last {s : ℕ} {b : Byte} (hdone : b.getLsbD 7 = false) (hbits : HasBits s v b) :
      Parts v s [b] (s + kDataBitsPerByte) b
  | more {s e : ℕ} {d b : Byte} {bytes : List Byte} (hmore : d.getLsbD 7 = true)
      (hbits : HasBits s v d) (hrest : Parts v (s + kDataBitsPerByte) bytes e b) :
      Parts v s (d :: bytes) e b

/-- Masking keeps the data bits. -/
theorem getLsbD_dataByteMask (hj : j < kDataBitsPerByte) :
    (d &&& kDataByteMask).getLsbD j = d.getLsbD j := by
  have hmask : ∀ j < kDataBitsPerByte, kDataByteMask.getLsbD j = true := by decide
  rw [BitVec.getLsbD_and, hmask j hj, Bool.and_true]

/-- Masking clears the top bit. -/
theorem getLsbD_dataByteMask_seven : (d &&& kDataByteMask).getLsbD 7 = false := by
  rw [BitVec.getLsbD_and, show kDataByteMask.getLsbD 7 = false from rfl, Bool.and_false]

/-- Masking does not change the data. -/
theorem HasBits.dataByteMask (h : HasBits s v d) : HasBits s v (d &&& kDataByteMask) :=
  fun j hj hjw => (getLsbD_dataByteMask hj).trans (h j hj hjw)

/-- **The loop of a LEB128 read** collects the parts, by induction over the bytes. -/
theorem readParts_of_parts (h : Parts v s bytes e b) (hr : IsLow s v r) (position : ℕ)
    (rest : List Byte) :
    ∃ r', readParts r s position (bytes ++ rest) =
      some ((r', e, b), ⟨position + bytes.length, rest⟩) ∧ IsLow e v r' := by
  induction h generalizing r position with
  | last hdone hbits =>
    have hlow := hr.step hbits.dataByteMask getLsbD_dataByteMask_seven
    refine ⟨_, ?_, hlow⟩
    simp only [singleton_append, readParts, more_iff, hdone, Bool.false_eq_true, if_false]
    rfl
  | @more s e d b bytes hmore hbits _ ih =>
    have hlow := hr.step hbits.dataByteMask getLsbD_dataByteMask_seven
    obtain ⟨r', hread, hr'⟩ := ih hlow (position + 1)
    refine ⟨r', ?_, hr'⟩
    simp only [cons_append, readParts, more_iff, hmore, if_true, length_cons]
    rw [hread, add_assoc, add_comm 1]

/-- The loop of the writers produces parts up to some bit, from which on the last check holds. -/
theorem writeParts_parts (next : BitVec w → BitVec w) (isLast : BitVec w → Byte → Bool)
    (rem : ℕ → BitVec w) (hnext : ∀ s, next (rem s) = rem (s + kDataBitsPerByte))
    (hrem : ∀ s i, s + i < w → (rem s).getLsbD i = v.getLsbD (s + i))
    (hlast : ∀ s, w ≤ s →
      isLast (rem (s + kDataBitsPerByte)) ((rem s).setWidth 8 &&& kDataByteMask)) (hpos : 0 < fuel)
    (hfuel : w + kDataBitsPerByte ≤ s + kDataBitsPerByte * fuel) :
    ∃ bytes e, writeParts next isLast fuel (rem s) = some bytes ∧
      Parts v s bytes (e + kDataBitsPerByte) ((rem e).setWidth 8 &&& kDataByteMask) ∧
      isLast (rem (e + kDataBitsPerByte)) ((rem e).setWidth 8 &&& kDataByteMask) := by
  induction fuel generalizing s with
  | zero => omega
  | succ fuel ih =>
    have hbits : HasBits s v ((rem s).setWidth 8 &&& kDataByteMask) := by
      refine HasBits.dataByteMask fun j hj hjw => ?_
      have hj8 : j < 8 := lt_succ_of_lt hj
      rw [BitVec.getLsbD_setWidth, hrem s j hjw, decide_eq_true hj8, Bool.true_and]
    rw [writeParts]
    simp only [hnext]
    split_ifs with hdone
    · exact ⟨_, s, rfl, .last getLsbD_dataByteMask_seven hbits, hdone⟩
    -- Bits are left, so there is fuel left.
    have hlt : s < w := by
      by_contra hle
      exact hdone (hlast s (not_lt.mp hle))
    rw [mul_succ] at hfuel
    have hpos' : 0 < fuel := by
      unfold kDataBitsPerByte at *
      omega
    obtain ⟨bytes, e, hwrite, hparts, hend⟩ := ih hpos' (s := s + kDataBitsPerByte) (by omega)
    rw [hwrite]
    refine ⟨_, e, rfl, .more ?_ (fun j hj hjw => ?_) hparts, hend⟩
    · rw [BitVec.getLsbD_or, show kMoreDataMask.getLsbD 7 = true from rfl, Bool.or_true]
    · have hmore : ∀ j < kDataBitsPerByte, kMoreDataMask.getLsbD j = false := by decide
      rw [BitVec.getLsbD_or, hmore j hj, Bool.or_false, hbits j hj hjw]

/-! ## `LEB128` -/

/-- **`LEB128` round trip.** -/
theorem readLEB128_writeLEB128 (hw : 8 ≤ w) (v : BitVec w) : ∃ bytes, writeLEB128 v = some bytes ∧
    ReadsBack readLEB128 v bytes := by
  have hlast : ∀ s, w ≤ s → (v >>> (s + kDataBitsPerByte) == 0) = true := by
    intro s hs
    rw [BitVec.ushiftRight_eq_zero (hs.trans (Nat.le_add_right _ _))]
    rfl
  obtain ⟨bytes, e, hwrite, hparts, hend⟩ := writeParts_parts (v := v) (s := 0)
    (· >>> kDataBitsPerByte) (fun remainder _ => remainder == 0) (v >>> ·)
    (fun s => (BitVec.shiftRight_add v s _).symm) (fun s i _ => BitVec.getLsbD_ushiftRight ..)
    hlast (show 0 < w by omega) (fuel_suffices hw)
  refine ⟨bytes, hwrite, fun position rest => ?_⟩
  obtain ⟨r, hread, hr⟩ := readParts_of_parts hparts isLow_zero position rest
  -- No bit is set from `e` on.
  have hhigh : ∀ i, e + kDataBitsPerByte ≤ i → i < w → v.getLsbD i = false := by
    intro i hi _
    have hbit := congrArg (BitVec.getLsbD · (i - (e + kDataBitsPerByte))) (beq_iff_eq.mp hend)
    simp only [BitVec.getLsbD_ushiftRight, Nat.add_sub_cancel' hi] at hbit
    simpa using hbit
  simp only [readLEB128, hread, bind_eq_bind, bind_some]
  rw [hr.eq hhigh]

/-! ## `SLEB128` -/

/-- The bits that sign extension sets. -/
theorem getLsbD_signBits (hs : s < w) :
    (~~~((1#w <<< s) - 1#w)).getLsbD i = (decide (i < w) && !decide (i < s)) := by
  have hmask : ((1#w <<< s) - 1#w).toNat = 2 ^ s - 1 := by
    have hlt : 2 ^ s < 2 ^ w := Nat.pow_lt_pow_right (by norm_num) hs
    have hpos : 0 < 2 ^ s := Nat.two_pow_pos s
    have hone : 1 % 2 ^ w = 1 := mod_eq_of_lt (by omega)
    rw [BitVec.toNat_sub, BitVec.toNat_shiftLeft, BitVec.toNat_ofNat, hone, one_shiftLeft,
      mod_eq_of_lt hlt, show 2 ^ w - 1 + 2 ^ s = (2 ^ s - 1) + 2 ^ w by omega,
      add_mod_right, mod_eq_of_lt (by omega)]
  rw [BitVec.getLsbD_not, ← BitVec.testBit_toNat, hmask, testBit_two_pow_sub_one]

/-- An arithmetic shift brings in the sign. -/
theorem getLsbD_sshiftRight_of_ge (hi : i < w) (hge : w ≤ s + i) :
    (v.sshiftRight s).getLsbD i = v.msb := by
  have hiw : ¬ w ≤ i := by omega
  have hsi : ¬ s + i < w := by omega
  simp [BitVec.getLsbD_sshiftRight, hiw, hsi]

/-- A negative remainder stays negative, so setting its high bits does nothing. -/
theorem sshiftRight_or_signExtend (hw : 8 ≤ w) (hneg : v.msb = true) (s : ℕ) :
    (v.sshiftRight s).sshiftRight kDataBitsPerByte ||| signExtend w =
      v.sshiftRight (s + kDataBitsPerByte) := by
  rw [← BitVec.sshiftRight_add]
  apply BitVec.eq_of_getLsbD_eq
  intro i hi
  rw [BitVec.getLsbD_or, signExtend, getLsbD_signBits (by unfold kDataBitsPerByte; omega)]
  by_cases hlow : i < w - kDataBitsPerByte
  · simp [hlow]
  · rw [getLsbD_sshiftRight_of_ge hi (by omega), hneg, Bool.true_or]

/-- A part beyond the width consists of copies of the sign. -/
theorem getLsbD_part (hw : 8 ≤ w) (hs : w ≤ s) (hi : i < kDataBitsPerByte) :
    ((v.sshiftRight s).setWidth 8 &&& kDataByteMask).getLsbD i = v.msb := by
  have h8 : i < 8 := lt_succ_of_lt hi
  rw [getLsbD_dataByteMask hi, BitVec.getLsbD_setWidth, decide_eq_true h8, Bool.true_and,
    getLsbD_sshiftRight_of_ge (by omega) (by omega)]

/-- What is left after a shift are the high bits. -/
theorem getLsbD_of_sshiftRight_eq (h : v.sshiftRight s = x) (hs : s ≤ i) (hi : i < w) :
    v.getLsbD i = x.getLsbD (i - s) := by
  rw [← h, getLsbD_sshiftRight_of_lt (by omega), Nat.add_sub_cancel' hs]

/-- Reading back a value: its sign is extended over the bits that were not written. -/
theorem readSLEB128_of_parts {sign : Bool} (hparts : Parts v 0 bytes e b)
    (hb : (b &&& kSignMask != 0) = sign) (hhigh : ∀ i, e ≤ i → i < w → v.getLsbD i = sign) :
    ReadsBack readSLEB128 v bytes := by
  intro position rest
  obtain ⟨r, hread, hr⟩ := readParts_of_parts hparts isLow_zero position rest
  simp only [readSLEB128, hread, bind_eq_bind, bind_some, hb, Bool.and_eq_true, decide_eq_true_eq]
  split_ifs with hlt
  · congr 2
    apply BitVec.eq_of_getLsbD_eq
    intro i hi
    rw [BitVec.getLsbD_or, hr i hi, getLsbD_signBits hlt.2]
    by_cases hlow : i < e
    · simp [hlow]
    · simp [hlow, hi, hhigh i (not_lt.mp hlow) hi, hlt.1]
  · rw [BitVec.or_zero, hr.eq fun i hi hiw => ?_]
    rw [hhigh i hi hiw]
    exact Bool.eq_false_iff.mpr fun hsign => hlt ⟨hsign, by omega⟩

/-- A shift beyond the width leaves copies of the sign. -/
theorem sshiftRight_eq_of_bits (hs : w ≤ s) (hx : ∀ i < w, x.getLsbD i = v.msb) :
    v.sshiftRight s = x := by
  apply BitVec.eq_of_getLsbD_eq
  intro i hi
  rw [getLsbD_sshiftRight_of_ge hi (by omega), hx i hi]

/-- **`SLEB128` round trip.** -/
theorem readSLEB128_writeSLEB128 (hw : 8 ≤ w) (v : BitVec w) :
    ∃ bytes, writeSLEB128 v = some bytes ∧ ReadsBack readSLEB128 v bytes := by
  have hpos : 0 < w := by omega
  unfold writeSLEB128
  rw [show v.slt 0 = v.msb from BitVec.slt_zero_eq_msb]
  cases hmsb : v.msb with
  | true =>
    have hlast : ∀ s, w ≤ s → (v.sshiftRight (s + kDataBitsPerByte) == ~~~0#w &&
        (v.sshiftRight s).setWidth 8 &&& kDataByteMask &&& kSignMask != 0) = true := by
      intro s hs
      rw [sign_iff, getLsbD_part hw hs (by decide), hmsb, Bool.and_true, beq_iff_eq]
      exact sshiftRight_eq_of_bits (by omega) fun i hi => by simp [hi, hmsb]
    obtain ⟨bytes, e, hwrite, hparts, hend⟩ := writeParts_parts (v := v) (s := 0)
      (fun remainder => remainder.sshiftRight kDataBitsPerByte ||| signExtend w)
      (fun remainder part => remainder == ~~~0#w && part &&& kSignMask != 0) (v.sshiftRight ·)
      (sshiftRight_or_signExtend hw hmsb) (fun s i => getLsbD_sshiftRight_of_lt) hlast hpos
      (fuel_suffices hw)
    rw [BitVec.sshiftRight_zero] at hwrite
    rw [Bool.and_eq_true, beq_iff_eq] at hend
    refine ⟨bytes, hwrite, readSLEB128_of_parts hparts hend.2 fun i hi hiw => ?_⟩
    rw [getLsbD_of_sshiftRight_eq hend.1 hi hiw]
    simp
    omega
  | false =>
    have hlast : ∀ s, w ≤ s → (v.sshiftRight (s + kDataBitsPerByte) == 0#w &&
        (v.sshiftRight s).setWidth 8 &&& kDataByteMask &&& kSignMask == 0) = true := by
      intro s hs
      have hbit := sign_iff.trans (getLsbD_part (v := v) hw hs (show 6 < 7 by decide))
      rw [hmsb, bne_eq_false_iff_eq] at hbit
      rw [hbit, beq_self_eq_true, Bool.and_true, beq_iff_eq]
      exact sshiftRight_eq_of_bits (by omega) fun i hi => by simp [hmsb]
    obtain ⟨bytes, e, hwrite, hparts, hend⟩ := writeParts_parts (v := v) (s := 0)
      (·.sshiftRight kDataBitsPerByte)
      (fun remainder part => remainder == 0#w && part &&& kSignMask == 0) (v.sshiftRight ·)
      (fun s => BitVec.sshiftRight_add.symm) (fun s i => getLsbD_sshiftRight_of_lt) hlast hpos
      (fuel_suffices hw)
    rw [BitVec.sshiftRight_zero] at hwrite
    rw [Bool.and_eq_true, beq_iff_eq, beq_iff_eq] at hend
    refine ⟨bytes, hwrite, readSLEB128_of_parts hparts (show _ = false by rw [hend.2]; rfl)
      fun i hi hiw => ?_⟩
    rw [getLsbD_of_sshiftRight_eq hend.1 hi hiw, BitVec.getLsbD_zero]

/-! ## All encodings -/

/-- Every width is a byte at least. -/
theorem Width.le_bits (width : Width) : 8 ≤ width.bits := by
  cases width <;> decide

/-- **One value**: a read gets back what the matching write has written, and stops behind it. -/
theorem Encoding.read_write (e : Encoding) (v : e.Value) : ∃ bytes, e.write v = some bytes ∧
    ReadsBack e.read v bytes := by
  have hw := Width.le_bits
  cases e with
  | signed width =>
    obtain ⟨bytes, hwrite, hmarked⟩ := write_marked (hw width) v
    exact ⟨bytes, hwrite, readMarked_of_marked hmarked⟩
  | raw width =>
    cases width with
    | w8 => exact ⟨[v], rfl, fun position rest => rfl⟩
    | w16 =>
      obtain ⟨bytes, hwrite, hmarked⟩ := write_marked (hw .w16) v
      exact ⟨bytes, hwrite, unrolled_of_marked 1 hmarked (by decide)⟩
    | w32 =>
      obtain ⟨bytes, hwrite, hmarked⟩ := write_marked (hw .w32) v
      exact ⟨bytes, hwrite, unrolled_of_marked 3 hmarked (by decide)⟩
    | w64 =>
      obtain ⟨bytes, hwrite, hmarked⟩ := write_marked (hw .w64) v
      exact ⟨bytes, hwrite, unrolled_of_marked 8 hmarked (by decide)⟩
  | unsigned width =>
    obtain ⟨bytes, hwrite, hmarked⟩ := writeUnsigned_marked (hw width) v
    exact ⟨bytes, hwrite, readMarked_of_marked hmarked⟩
  | leb128 width => exact readLEB128_writeLEB128 (hw width) v
  | sleb128 width => exact readSLEB128_writeSLEB128 (hw width) v

/-- **The round trip from any position**, by induction over the values. -/
theorem readAll_writeAll_from (values : List (Σ e : Encoding, e.Value)) (before : List Byte) :
    ∃ bytes, writeAll values before = some (before ++ bytes) ∧
      readAll (values.map (·.1)) ⟨before.length, bytes⟩ =
        some (values, ⟨(before ++ bytes).length, []⟩) := by
  induction values generalizing before with
  | nil => exact ⟨[], by simp [writeAll], by simp [readAll]⟩
  | cons value values ih =>
    obtain ⟨e, v⟩ := value
    obtain ⟨new, hwrite, hread⟩ := e.read_write v
    obtain ⟨bytes, hwriteAll, hreadAll⟩ := ih (before ++ new)
    refine ⟨new ++ bytes, ?_, ?_⟩
    · simp [writeAll, hwrite, hwriteAll]
    · rw [length_append] at hreadAll
      simp [readAll, hread _ _, hreadAll]

/-- **Round trip.** Writing any values succeeds, and the matching reads return them and end where
the writer ended. -/
theorem readAll_writeAll (values : List (Σ e : Encoding, e.Value)) :
    ∃ bytes, writeAll values [] = some bytes ∧
      readAll (values.map (·.1)) ⟨0, bytes⟩ = some (values, ⟨bytes.length, []⟩) := by
  obtain ⟨bytes, hwrite, hread⟩ := readAll_writeAll_from values []
  exact ⟨bytes, hwrite, hread⟩

example : writeAll [⟨.signed .w16, -300⟩, ⟨.unsigned .w8, 200⟩, ⟨.sleb128 .w32, -128⟩] [] =
    some [84, 189, 72, 129, 128, 127] := by decide

end DartVm.DataStream
