import Mathlib.Data.Int.Notation
import Mathlib.Order.Basic

/-! # Hashes of strings

`Utils::StringHash` of `platform/utils.cc` on a little-endian machine.  A string at an aligned
address is read word by word; at another one, its words are put together from two aligned words
each.  `window` is what the shifts make of bytes: in front of an aligned word it holds the bytes of
the string that come next (`mixWindows_eq`).

* `mixWindows_eq`: the window holds the bytes that come next.
* `stringHash_eq_aligned`: the hash does not depend on the address. -/

namespace DartVm.StringHash

open List

/-! ## Model -/

/-- The multiplier of the mixing function. -/
def kStringHashM : BitVec 32 := 0x5bd1e995

/-- The shift of the mixing function. -/
def kStringHashR : ℕ := 24

/-- One round of the mixing function: a word of four bytes goes into the hash. -/
def mix (hash part : BitVec 32) : BitVec 32 :=
  let part := part * kStringHashM
  let part := part ^^^ (part >>> kStringHashR)
  let part := part * kStringHashM
  let hash := hash * kStringHashM
  hash ^^^ part

/-- The bytes `cursor[0] << shift | cursor[1] << (8 + shift) | …`; four bytes at `shift = 0` are a
word. -/
def window (shift : ℕ) : List (BitVec 8) → BitVec 32
  | [] => 0
  | b :: bytes => b.setWidth 32 <<< shift ||| window (shift + 8) bytes

/-- The loop over an aligned string: the hash and the bytes that are left. -/
def mixWords (hash : BitVec 32) : List (BitVec 8) → BitVec 32 × List (BitVec 8)
  | a :: b :: c :: d :: bytes => mixWords (mix hash (window 0 [a, b, c, d])) bytes
  | bytes => (hash, bytes)

/-- The loop over the aligned part of a string that is not aligned: hash, window and
the bytes left. -/
def mixWindows (sr sl : ℕ) (hash dataWindow : BitVec 32) :
    List (BitVec 8) → BitVec 32 × BitVec 32 × List (BitVec 8)
  | a :: b :: c :: d :: bytes =>
    let alignedPart := window 0 [a, b, c, d]
    mixWindows sr sl (mix hash (dataWindow ||| alignedPart <<< sl)) (alignedPart >>> sr) bytes
  | bytes => (hash, dataWindow, bytes)

/-- The part for strings that are not aligned. -/
def hashMisaligned (misalignment : ℕ) (hash : BitVec 32) (data : List (BitVec 8)) :
    BitVec 32 × List (BitVec 8) :=
  let sr := misalignment * 8
  let sl := 32 - sr
  let preAlignmentLength := 4 - misalignment
  let (hash, dataWindow, bytes) := mixWindows sr sl hash (window 0 (data.take preAlignmentLength))
    (data.drop preAlignmentLength)
  if misalignment ≤ bytes.length then
    (mix hash (dataWindow ||| window sl (bytes.take misalignment)), bytes.drop misalignment)
  else ((hash ^^^ (dataWindow ||| window sl bytes)) * kStringHashM, [])

/-- `hash ^= cursor[2] << 16`, `hash ^= cursor[1] << 8`, `hash ^= cursor[0]` for the
bytes there are. -/
def xorBytes (hash : BitVec 32) (shift : ℕ) : List (BitVec 8) → BitVec 32
  | [] => hash
  | b :: bytes => xorBytes hash (shift + 8) bytes ^^^ b.setWidth 32 <<< shift

/-- The last few bytes. -/
def hashTail (hash : BitVec 32) (bytes : List (BitVec 8)) : BitVec 32 :=
  if bytes = [] then hash else xorBytes hash 0 bytes * kStringHashM

/-- The final mixes. -/
def finalize (hash : BitVec 32) : BitVec 32 :=
  let hash := hash ^^^ (hash >>> 13)
  let hash := hash * kStringHashM
  hash ^^^ (hash >>> 15)

/-- `Utils::StringHash` of the bytes at an address, which is read as an `intptr_t`. -/
def stringHash (address : ℤ) (data : List (BitVec 8)) : BitVec 32 :=
  let hash := BitVec.ofNat 32 data.length
  let misalignment := address.tmod 4
  let (hash, bytes) :=
    if 4 ≤ data.length then
      if 0 < misalignment then hashMisaligned misalignment.toNat hash data else mixWords hash data
    else (hash, data)
  finalize (hashTail hash bytes)

/-! ## Windows -/

variable {s m : ℕ} {hash : BitVec 32} {l l' pending bytes : List (BitVec 8)}

/-- The bytes of two lists stand one after the other in a word. -/
theorem window_append (s : ℕ) (l l' : List (BitVec 8)) :
    window s (l ++ l') = window s l ||| window (s + 8 * l.length) l' := by
  induction l generalizing s with
  | nil => simp [window]
  | cons b l ih =>
    rw [cons_append, window, ih, window, BitVec.or_assoc, length_cons]
    congr 3
    omega

/-- Shifting a word shifts its bytes. -/
theorem window_shiftLeft (s k : ℕ) (l : List (BitVec 8)) : window s l <<< k = window (s + k) l := by
  induction l generalizing s with
  | nil => simp [window]
  | cons b l ih =>
    rw [window, BitVec.shiftLeft_or_distrib, ih, ← BitVec.shiftLeft_add, window, Nat.add_right_comm]

/-- The bits of a word are the bits of its bytes. -/
theorem getLsbD_window (s i : ℕ) (l : List (BitVec 8)) : (window s l).getLsbD i =
    (decide (i < 32) && (decide (s ≤ i) && l[(i - s) / 8]?.any (·.getLsbD ((i - s) % 8)))) := by
  induction l generalizing s with
  | nil => simp [window]
  | cons b l ih =>
    rw [window, BitVec.getLsbD_or, BitVec.getLsbD_shiftLeft, BitVec.getLsbD_setWidth, ih]
    rcases Nat.lt_or_ge i (s + 8) with hlt | hge
    · have hindex : (i - s) / 8 = 0 := by omega
      have hbit : (i - s) % 8 = i - s := by omega
      rw [hindex, hbit, decide_eq_false (Nat.not_le.mpr hlt)]
      by_cases hi : i < 32
      · by_cases hs : s ≤ i
        · have hbound : i - s < 32 := by omega
          simp [hi, hs, hbound]
        · simp [hi, hs, Nat.lt_of_not_le hs]
      · simp [hi]
    · obtain ⟨j, rfl⟩ := Nat.exists_eq_add_of_le hge
      have hindex : (s + 8 + j - s) / 8 = j / 8 + 1 := by omega
      have hbit : (s + 8 + j - s) % 8 = j % 8 := by omega
      have hhigh : b.getLsbD (s + 8 + j - s) = false := BitVec.getLsbD_of_ge _ _ (by omega)
      rw [hindex, hbit, hhigh, Nat.add_sub_cancel_left, getElem?_cons_succ]
      have hle : s ≤ s + 8 + j := by omega
      simp [hle]

/-- Bytes beyond the word are lost. -/
theorem window_of_ge (hs : 32 ≤ s) : window s l = 0 := by
  refine BitVec.eq_of_getLsbD_eq fun i hi => ?_
  rw [getLsbD_window, decide_eq_false (by omega : ¬s ≤ i)]
  simp

/-- Shifting to the right drops the first bytes. -/
theorem window_shiftRight (hl : l.length ≤ 4) : window 0 l >>> (m * 8) = window 0 (l.drop m) := by
  refine BitVec.eq_of_getLsbD_eq fun i hi => ?_
  rw [BitVec.getLsbD_ushiftRight, getLsbD_window, getLsbD_window, getElem?_drop,
    show (m * 8 + i - 0) / 8 = m + (i - 0) / 8 by omega,
      show (m * 8 + i - 0) % 8 = (i - 0) % 8 by omega]
  by_cases hbound : m * 8 + i < 32
  · simp [hbound, hi]
  · rw [getElem?_eq_none (by omega : l.length ≤ m + (i - 0) / 8)]
    simp

/-- Bytes that are added one by one are added as a word. -/
theorem xorBytes_eq (hash : BitVec 32) (s : ℕ) (l : List (BitVec 8)) :
    xorBytes hash s l = hash ^^^ window s l := by
  induction l generalizing s with
  | nil => simp [xorBytes, window]
  | cons b l ih =>
    -- The bytes have no bits in common.
    have hdisjoint : b.setWidth 32 <<< s ||| window (s + 8) l =
        b.setWidth 32 <<< s ^^^ window (s + 8) l := by
      refine BitVec.eq_of_getLsbD_eq fun i hi => ?_
      rw [BitVec.getLsbD_or, BitVec.getLsbD_xor]
      rcases Nat.lt_or_ge i (s + 8) with hlt | hge
      · rw [getLsbD_window, decide_eq_false (Nat.not_le.mpr hlt)]
        simp
      · rw [BitVec.getLsbD_shiftLeft, BitVec.getLsbD_setWidth,
          BitVec.getLsbD_of_ge b (i - s) (by omega)]
        simp
    rw [xorBytes, ih, window, hdisjoint, BitVec.xor_assoc, BitVec.xor_comm (window _ _)]

/-! ## Alignment -/

/-- Four bytes at the front are one round. -/
theorem mixWords_append (hl : l.length = 4) :
    mixWords hash (l ++ l') = mixWords (mix hash (window 0 l)) l' := by
  obtain ⟨a, b, c, d, rfl⟩ : ∃ a b c d, l = [a, b, c, d] := by
    match l, hl with
    | [a, b, c, d], _ => exact ⟨a, b, c, d, rfl⟩
  rw [cons_append, cons_append, cons_append, cons_append, nil_append, mixWords]

/-- Fewer than four bytes are left for later. -/
theorem mixWords_of_lt (hl : l.length < 4) : mixWords hash l = (hash, l) := by
  match l, hl with
  | [], _ => rfl
  | [_], _ => rfl
  | [_, _], _ => rfl
  | [_, _, _], _ => rfl

/-- The last bytes, together with those that are pending, are hashed as if they stood in one
list. -/
theorem hashTail_of_lt (hm : m < 4) (hpending : pending.length + m = 4)
    (hbytes : bytes.length < 4) :
    (if m ≤ bytes.length then
        hashTail (mix hash (window 0 pending ||| window (32 - m * 8) (bytes.take m))) (bytes.drop m)
      else (hash ^^^ (window 0 pending ||| window (32 - m * 8) bytes)) * kStringHashM) =
      hashTail (mixWords hash (pending ++ bytes)).1 (mixWords hash (pending ++ bytes)).2 := by
  have hshift : 32 - m * 8 = 0 + 8 * pending.length := by omega
  rw [hshift, ← window_append, ← window_append]
  split_ifs with hfull
  · have hword : (pending ++ bytes.take m).length = 4 := by
      rw [length_append, length_take]
      omega
    have hsplit : pending ++ bytes = pending ++ bytes.take m ++ bytes.drop m := by
      rw [append_assoc, take_append_drop]
    rw [hsplit, mixWords_append hword, mixWords_of_lt (by rw [length_drop]; omega)]
  · have hlength : (pending ++ bytes).length = pending.length + bytes.length := length_append
    have hne : pending ++ bytes ≠ [] := by
      intro hnil
      rw [hnil, length_nil] at hlength
      omega
    rw [mixWords_of_lt (by omega), hashTail, if_neg hne, xorBytes_eq]

/-- **The window holds the bytes that come next**: from there on, both loops do the same. -/
theorem mixWindows_eq (hash : BitVec 32) {pending : List (BitVec 8)} (bytes : List (BitVec 8))
    (hm : m < 4) (hpending : pending.length + m = 4) :
    (let (hash, dataWindow, bytes) :=
        mixWindows (m * 8) (32 - m * 8) hash (window 0 pending) bytes
      if m ≤ bytes.length then
        hashTail (mix hash (dataWindow ||| window (32 - m * 8) (bytes.take m))) (bytes.drop m)
      else (hash ^^^ (dataWindow ||| window (32 - m * 8) bytes)) * kStringHashM) =
      hashTail (mixWords hash (pending ++ bytes)).1 (mixWords hash (pending ++ bytes)).2 := by
  match bytes with
  | a :: b :: c :: d :: bytes =>
    have hshift : 32 - m * 8 = 0 + 8 * pending.length := by omega
    -- The word of the string, and the rest of the aligned word.
    have hword : ((pending ++ [a, b, c, d]).take 4).length = 4 := by simp
    have hrest : (pending ++ [a, b, c, d]).drop 4 = [a, b, c, d].drop m := by
      rw [drop_append, drop_of_length_le (by omega), nil_append,
        show 4 - pending.length = m by omega]
    have hsplit : pending ++ a :: b :: c :: d :: bytes =
        (pending ++ [a, b, c, d]).take 4 ++ ([a, b, c, d].drop m ++ bytes) := by
      rw [← hrest, ← append_assoc, take_append_drop, append_assoc]
      rfl
    have hwindow : window 0 pending ||| window 0 [a, b, c, d] <<< (32 - m * 8) =
        window 0 ((pending ++ [a, b, c, d]).take 4) := by
      have hall := window_append 0 ((pending ++ [a, b, c, d]).take 4)
        ((pending ++ [a, b, c, d]).drop 4)
      have hlost : window (0 + 8 * 4) ((pending ++ [a, b, c, d]).drop 4) = 0#32 :=
        window_of_ge (by decide)
      rw [take_append_drop, hword, hlost, BitVec.or_zero] at hall
      rw [window_shiftLeft, ← hall, window_append, hshift, Nat.zero_add]
    rw [hsplit, mixWords_append hword, mixWindows]
    simp only [hwindow, window_shiftRight (m := m) (l := [a, b, c, d]) (by simp)]
    exact mixWindows_eq _ bytes hm (by rw [length_drop]; show 4 - m + m = 4; omega)
  | [] => exact hashTail_of_lt hm hpending (by simp)
  | [_] => exact hashTail_of_lt hm hpending (by simp)
  | [_, _] => exact hashTail_of_lt hm hpending (by simp)
  | [_, _, _] => exact hashTail_of_lt hm hpending (by simp)
termination_by bytes.length

/-- A string that is not aligned is hashed as an aligned one, the last few bytes included. -/
theorem hashMisaligned_tail (hm : m < 4) (hl : (l.take (4 - m)).length + m = 4) :
    hashTail (hashMisaligned m hash l).1 (hashMisaligned m hash l).2 =
      hashTail (mixWords hash l).1 (mixWords hash l).2 := by
  have hloop := mixWindows_eq hash (l.drop (4 - m)) hm hl
  rw [take_append_drop] at hloop
  rw [← hloop, hashMisaligned]
  dsimp only
  split_ifs
  · rfl
  · rfl

/-- **Hashes of strings do not depend on the address**: the hash at any address is that at an
aligned one. -/
theorem stringHash_eq_aligned (address : ℤ) (data : List (BitVec 8)) :
    stringHash address data = stringHash 0 data := by
  have hmod : (address.tmod 4).toNat < 4 := by
    have hlt := Int.tmod_lt_of_pos address (by decide : (0 : ℤ) < 4)
    omega
  unfold stringHash
  dsimp only
  by_cases hlength : 4 ≤ data.length
  · rw [if_pos hlength, if_pos hlength, if_neg (by decide : ¬(0 : ℤ) < Int.tmod 0 4)]
    split_ifs
    · generalize (address.tmod 4).toNat = m at hmod
      have hpending : (data.take (4 - m)).length + m = 4 := by
        rw [length_take]
        omega
      rw [hashMisaligned_tail hmod hpending]
    · rfl
  · rw [if_neg hlength, if_neg hlength]

end DartVm.StringHash
