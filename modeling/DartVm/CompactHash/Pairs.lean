import DartVm.CompactHash.LinkedHashMap
import Mathlib.Data.Nat.Bitwise

/-! # Index pairs

A hash pattern is a positive multiple of half the size of the index, which is a power of two, and
the number of an entry is below it.  So both can be read back from a pair.

* `RoomyMask`: a mask for which pairs fit.
* `pair_lt`: such pairs have 32 bits. -/

namespace DartVm.CompactHash

open OpenAddressing Nat

variable {K V : Type} {p c c' j : ℕ}

/-! ## Bits -/

/-- A pattern and an entry number share no bits: or is a sum. -/
theorem mul_two_pow_or (c : ℕ) (hj : j < 2 ^ p) : c * 2 ^ p ||| j = c * 2 ^ p + j := by
  rw [mul_comm, two_pow_add_eq_or_of_lt hj]

/-- A pattern and an entry number share no bits. -/
theorem mul_two_pow_and (c : ℕ) (hj : j < 2 ^ p) : c * 2 ^ p &&& j = 0 := by
  refine eq_of_testBit_eq fun i => ?_
  rw [testBit_and, zero_testBit, Bool.and_eq_false_iff]
  by_cases hi : i < p
  · exact Or.inl (by rw [testBit_mul_two_pow]; simp [hi])
  · exact Or.inr (testBit_lt_two_pow
      (Nat.lt_of_lt_of_le hj (Nat.pow_le_pow_right (by decide) (Nat.not_lt.mp hi))))

/-- Comparing the pattern of a pair with another one leaves the entry number exactly if they are
equal. -/
theorem mul_two_pow_xor (c c' : ℕ) (hj : j < 2 ^ p) :
    (c * 2 ^ p ^^^ (c' * 2 ^ p + j) < 2 ^ p ↔ c = c') ∧
      (c = c' → c * 2 ^ p ^^^ (c' * 2 ^ p + j) = j) := by
  have hpos : 0 < 2 ^ p := Nat.two_pow_pos p
  have hdiv : (c * 2 ^ p ^^^ (c' * 2 ^ p + j)) / 2 ^ p = c ^^^ c' := by
    rw [xor_div_two_pow, Nat.mul_div_cancel _ hpos, Nat.add_comm (c' * 2 ^ p),
      add_mul_div_right _ _ hpos, div_eq_of_lt hj, zero_add]
  have hmod : (c * 2 ^ p ^^^ (c' * 2 ^ p + j)) % 2 ^ p = j := by
    rw [xor_mod_two_pow, mul_mod_left, mul_add_mod_self_right, mod_eq_of_lt hj, zero_xor]
  have hiff : c * 2 ^ p ^^^ (c' * 2 ^ p + j) < 2 ^ p ↔ c = c' := by
    rw [← div_eq_zero_iff_lt hpos, hdiv, xor_eq_zero_iff]
  exact ⟨hiff, fun h => by rw [← mod_eq_of_lt (hiff.mpr h), hmod]⟩

/-! ## Probing -/

/-- The next probe, modulo the size. -/
theorem nextProbe_eq (k i : ℕ) : nextProbe (2 ^ k - 1) i = (i + 1) % 2 ^ k :=
  and_two_pow_sub_one_eq_mod _ _

/-- The first probe is in the index. -/
theorem firstProbe_lt (hash : BitVec 64) (k : ℕ) : firstProbe hash (2 ^ k - 1) < 2 ^ k := by
  rw [firstProbe, and_two_pow_sub_one_eq_mod]
  exact mod_lt _ (Nat.two_pow_pos k)

/-- The places where a key is looked for. -/
def path (keys : KeyEquality K) (size : ℕ) (key : K) : ℕ → ℕ :=
  linear size (firstProbe (keys.hashCode key) (size - 1))

/-- The probes are the path of the key. -/
theorem nextProbe_iterate (keys : KeyEquality K) (k j : ℕ) (key : K) :
    (nextProbe (2 ^ k - 1))^[j] (firstProbe (keys.hashCode key) (2 ^ k - 1)) =
      path keys (2 ^ k) key j := by
  rw [path, ← linear_iterate, mod_eq_of_lt (firstProbe_lt _ k)]
  congr 2
  exact funext fun i => nextProbe_eq k i

/-- Equal keys have the same path. -/
theorem path_congr {keys : KeyEquality K} (hkeys : keys.Lawful) (size : ℕ) {key key' : K}
    (h : keys.equals key key') : path keys size key' = path keys size key := by
  rw [path, path, hkeys.hash key key' h]

/-! ## Patterns -/

/-- What half the size is multiplied with in a hash pattern. -/
def patternFactor (hash : BitVec 64) (hashMask : ℕ) : ℕ :=
  if hash.toNat &&& hashMask = 0 then 1 else hash.toNat &&& hashMask

/-- The pattern is a multiple of half the size. -/
theorem hashPattern_eq (hash : BitVec 64) (hashMask p : ℕ) :
    hashPattern hash hashMask (2 ^ (p + 1)) = patternFactor hash hashMask * 2 ^ p := by
  have hhalf : 2 ^ (p + 1) >>> 1 = 2 ^ p := by
    rw [shiftRight_eq_div_pow, Nat.pow_one, Nat.pow_succ, Nat.mul_div_cancel _ (by decide)]
  rw [hashPattern, patternFactor, hhalf]
  split
  · rw [one_mul]
  · rfl

/-- The pattern is never zero, so it differs from the marks. -/
theorem patternFactor_pos (hash : BitVec 64) (hashMask : ℕ) : 0 < patternFactor hash hashMask := by
  unfold patternFactor
  split <;> omega

/-- **A mask that leaves room**: it has only low bits, and patterns are below `2 ^ 32`. -/
def RoomyMask (hashMask size : ℕ) : Prop :=
  ∃ b, hashMask = 2 ^ b - 1 ∧ (b = 0 ∨ 2 ^ b * size ≤ 2 ^ 33)

/-- **A pair is below `2 ^ 32`.** -/
theorem pair_lt {hashMask : ℕ} (hmask : RoomyMask hashMask (2 ^ (p + 1))) (hp : p ≤ 31)
    (hash : BitVec 64) (hj : j < 2 ^ p) : patternFactor hash hashMask * 2 ^ p + j < 2 ^ 32 := by
  have hpow : 2 ^ p ≤ 2 ^ 31 := Nat.pow_le_pow_right (by decide) hp
  obtain ⟨b, rfl, hb⟩ := hmask
  unfold patternFactor
  split
  · omega
  next hne =>
    rw [and_two_pow_sub_one_eq_mod] at hne ⊢
    rcases hb with rfl | hb
    · exact absurd (mod_one _) hne
    have hlt : hash.toNat % 2 ^ b + 1 ≤ 2 ^ b := mod_lt _ (Nat.two_pow_pos b)
    have hmul := mul_le_mul_right (2 ^ p) hlt
    rw [pow_succ, ← mul_assoc] at hb
    rw [add_mul, one_mul] at hmul
    omega

/-- Halving the mask goes with doubling the size. -/
theorem RoomyMask.halve {hashMask size : ℕ} (h : RoomyMask hashMask size) :
    RoomyMask (hashMask >>> 1) (size <<< 1) := by
  obtain ⟨b, rfl, hb⟩ := h
  rw [shiftRight_eq_div_pow, shiftLeft_eq, pow_one]
  cases b with
  | zero => exact ⟨0, rfl, Or.inl rfl⟩
  | succ b =>
    refine ⟨b, ?_, Or.inr ?_⟩
    · omega
    · have hle := hb.resolve_left (by omega)
      rwa [pow_succ, mul_assoc, mul_comm 2 size] at hle

end DartVm.CompactHash
