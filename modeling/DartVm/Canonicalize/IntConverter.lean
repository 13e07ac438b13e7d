import DartVm.RangeAnalysis.Sound

/-! # Canonicalization of integer conversions

`IntConverterInstr::Canonicalize` (`compiler/backend/il.cc`) merges two nested conversions between
integer representations into one, or drops both.  `convert` is the meaning of a conversion on the
bits.

`canonicalize_denotes_iff` says when the result denotes what the nested conversions denoted.  The
test that the first conversion cannot erase bits is only made from `int64`; a change of sign between
`int32` and `uint32` passes it and is lost when the second conversion widens.

* `convert`: what a conversion does to the bits.
* `canonicalize_denotes_iff`: when merging two conversions is right.
* `canonicalize_sign_lost`: a merged conversion with another value. -/

namespace DartVm.IntConverter

open RangeBoundary

/-- The representations an `IntConverter` works on. -/
inductive Representation where
  | unboxedInt32
  | unboxedUint32
  | unboxedInt64
  /-- `kUntagged`: a native pointer. -/
  | untagged
  deriving DecidableEq, Repr

namespace Representation

/-- The width in bits. -/
def width : Representation → ℕ
  | unboxedInt32 => 32
  | unboxedUint32 => 32
  | unboxedInt64 => 64
  | untagged => 64

/-- The integer that the bits stand for. -/
def toInt (r : Representation) (x : BitVec r.width) : ℤ :=
  match r with
  | unboxedUint32 => x.toNat
  | _ => x.toInt

/-- The bits of an integer. -/
def ofInt (r : Representation) (v : ℤ) : BitVec r.width := BitVec.ofInt r.width v

/-- The integers that the representation holds. -/
def Holds (v : ℤ) : Representation → Prop
  | unboxedInt32 => -2 ^ 31 ≤ v ∧ v < 2 ^ 31
  | unboxedUint32 => 0 ≤ v ∧ v < 2 ^ 32
  | unboxedInt64 => -2 ^ 63 ≤ v ∧ v < 2 ^ 63
  | untagged => -2 ^ 63 ≤ v ∧ v < 2 ^ 63

/-- One of the three integer representations. -/
def IsInteger (r : Representation) : Prop := r ≠ untagged

instance (r : Representation) : Decidable r.IsInteger := inferInstanceAs (Decidable (r ≠ untagged))

end Representation

open DartVm.IntConverter.Representation

/-- **Conversion** of the bits: `int32` is extended by its sign, `uint32` by zeros; a narrower
representation gets the low bits. -/
def convert (source target : Representation) (x : BitVec source.width) : BitVec target.width :=
  match source with
  | unboxedInt32 => x.signExtend target.width
  | _ => x.setWidth target.width

/-- An integer definition, with its range. -/
inductive Defn where
  | intConverter (source target : Representation) (value : Defn) (isTruncating : Bool)
      (deoptId : Option ℕ) (range : Option Range)
  | unboxInt64 (value : Defn) (range : Option Range)
  /-- `UnboxInt32Instr`, truncating or not. -/
  | unboxInt32 (isTruncating : Bool) (value : Defn) (deoptId : Option ℕ) (range : Option Range)
  /-- Any other definition, by its SSA index. -/
  | other (index : ℕ) (range : Option Range)

namespace Defn

/-- `range()` of a definition. -/
def range : Defn → Option Range
  | intConverter _ _ _ _ _ range => range
  | unboxInt64 _ range => range
  | unboxInt32 _ _ _ range => range
  | other _ range => range

/-- The integer a definition denotes, for given values of the other definitions. -/
def eval (ρ : ℕ → ℤ) : Defn → ℤ
  | intConverter source target value _ _ _ =>
    target.toInt (convert source target (source.ofInt (value.eval ρ)))
  | unboxInt64 value _ => value.eval ρ
  | unboxInt32 _ value _ _ => unboxedInt32.toInt (unboxedInt32.ofInt (value.eval ρ))
  | other index _ => ρ index

end Defn

/-- The static `Range::Fits`: whether a range fits a representation without truncation. -/
def fits (t : Target) (range : Option Range) (rep : Representation) : Bool :=
  match range, rep with
  | none, _ => false
  | some _, unboxedInt64 => true
  | some r, unboxedInt32 => r.fits t .int32
  | some r, unboxedUint32 => r.isWithin t 0 (2 ^ 32 - 1)
  | some _, untagged => false

/-- The constructor of `IntConverterInstr`. -/
def mkIntConverter (source target : Representation) (value : Defn) (deoptId : Option ℕ) : Defn :=
  .intConverter source target value (target = unboxedUint32) deoptId none

/-- `mark_truncating`: only converters have the flag. -/
def markTruncating : Defn → Defn
  | .intConverter source target value _ deoptId range =>
    .intConverter source target value true deoptId range
  | d => d

/-- **`IntConverterInstr::Canonicalize`**; `none` is `NULL`. `hasUses` and `onlyInputUse` are what
the use lists say about the conversion and an unboxed input. -/
def canonicalize (t : Target) (hasUses onlyInputUse : Bool) (source target : Representation)
    (value : Defn) (isTruncating : Bool) (deoptId : Option ℕ) (range : Option Range) :
    Option Defn :=
  let this := Defn.intConverter source target value isTruncating deoptId range
  if !hasUses then none
  else
    match value with
    | .intConverter boxSource boxTarget srcDefn _ _ _ =>
      if boxTarget = source then
        -- A first conversion that can erase bits is not canonicalized away.
        if boxSource = unboxedInt64 ∧ !fits t srcDefn.range boxTarget then some this
        else if boxSource = target then some srcDefn
        else if boxSource = untagged ∨ target = untagged then some this
        else
          let converter := mkIntConverter boxSource target srcDefn
            (if target = unboxedInt32 then deoptId else none)
          some (if target = unboxedInt32 ∧ isTruncating then markTruncating converter
            else converter)
      else some this
    | .unboxInt64 unboxValue _ =>
      if source = unboxedInt64 ∧ target = unboxedInt32 ∧ onlyInputUse then
        some (.unboxInt32 isTruncating unboxValue deoptId none)
      else some this
    | _ => some this

/-! ## Conversions as arithmetic -/

namespace Representation

/-- The integer of the representation that is congruent to `v`. -/
def wrap (v : ℤ) : Representation → ℤ
  | unboxedInt32 => v.bmod (2 ^ 32)
  | unboxedUint32 => v % 2 ^ 32
  | unboxedInt64 => v.bmod (2 ^ 64)
  | untagged => v.bmod (2 ^ 64)

end Representation

/-- Reading a bit vector as an unsigned number is a remainder. -/
theorem natCast_toNat_ofInt (n : ℕ) (v : ℤ) : ((BitVec.ofInt n v).toNat : ℤ) = v % 2 ^ n := by
  rw [BitVec.toNat_ofInt, Int.toNat_of_nonneg (Int.emod_nonneg _ (by positivity))]
  rfl

/-- Narrowing a bit vector commutes with taking it from an integer. -/
theorem setWidth_ofInt_of_le {m n : ℕ} (h : m ≤ n) (v : ℤ) :
    (BitVec.ofInt n v).setWidth m = BitVec.ofInt m v := by
  apply BitVec.eq_of_toNat_eq
  zify
  rw [BitVec.toNat_setWidth]
  push_cast
  rw [natCast_toNat_ofInt, natCast_toNat_ofInt, Int.emod_emod_of_dvd _ (pow_dvd_pow 2 h)]

variable {v : ℤ}

/-- Widening a bit vector commutes with taking it from a non-negative integer that fits. -/
theorem setWidth_ofInt_of_nonneg {m n : ℕ} (h0 : 0 ≤ v) (h : v < 2 ^ n) :
    (BitVec.ofInt n v).setWidth m = BitVec.ofInt m v := by
  apply BitVec.eq_of_toNat_eq
  zify
  rw [BitVec.toNat_setWidth]
  push_cast
  rw [natCast_toNat_ofInt, natCast_toNat_ofInt, Int.emod_eq_of_lt h0 h]

/-- **A conversion keeps the integer, up to the bits of the target.** -/
theorem convert_ofInt {source : Representation} (hv : source.Holds v)
    (target : Representation) : convert source target (source.ofInt v) = target.ofInt v := by
  cases source with
  | unboxedInt32 =>
    show BitVec.ofInt target.width (BitVec.ofInt 32 v).toInt = _
    have h1 : -2 ^ 31 ≤ v := hv.1
    have h2 : v < 2 ^ 31 := hv.2
    rw [BitVec.toInt_ofInt, Int.bmod_eq_of_le (by norm_num at h1 ⊢; omega)
      (by norm_num at h2 ⊢; omega)]
    rfl
  | unboxedUint32 => exact setWidth_ofInt_of_nonneg hv.1 hv.2
  | unboxedInt64 | untagged => exact setWidth_ofInt_of_le (by cases target <;> decide) v

/-- Writing a value to a register and reading it back wraps it around. -/
theorem toInt_ofInt (r : Representation) (v : ℤ) : r.toInt (r.ofInt v) = r.wrap v := by
  cases r with
  | unboxedInt32 | unboxedInt64 | untagged => exact BitVec.toInt_ofInt v
  | unboxedUint32 => exact natCast_toNat_ofInt 32 v

/-- The balanced remainder is the one congruent integer in its interval. -/
theorem bmod_spec {n : ℕ} (hn : 0 < n) (v : ℤ) :
    -2 ^ (n - 1) ≤ v.bmod (2 ^ n) ∧ v.bmod (2 ^ n) < 2 ^ (n - 1) ∧
      v.bmod (2 ^ n) % 2 ^ n = v % 2 ^ n := by
  have hpow : (2 : ℤ) ^ n = 2 * 2 ^ (n - 1) := by
    rw [← pow_succ', Nat.sub_add_cancel hn]
  have h1 := Int.le_bmod (x := v) (m := 2 ^ n) (by positivity)
  have h2 := Int.bmod_lt (x := v) (m := 2 ^ n) (by positivity)
  have h3 := Int.bmod_emod (x := v) (m := 2 ^ n)
  push_cast at h1 h2 h3
  refine ⟨by omega, by omega, h3⟩

/-- What is wrapped around is in the representation. -/
theorem holds_wrap (r : Representation) (v : ℤ) : r.Holds (r.wrap v) := by
  cases r with
  | unboxedInt32 =>
    have h := bmod_spec (n := 32) (by decide) v
    exact ⟨h.1, h.2.1⟩
  | unboxedUint32 =>
    show 0 ≤ v % 2 ^ 32 ∧ v % 2 ^ 32 < 2 ^ 32
    omega
  | unboxedInt64 | untagged =>
    have h := bmod_spec (n := 64) (by decide) v
    exact ⟨h.1, h.2.1⟩

variable {r : Representation} {t : Target}

/-- Values of the representation stay. -/
theorem wrap_of_holds (hv : r.Holds v) : r.wrap v = v := by
  cases r with
  | unboxedInt32 =>
    have h : -2 ^ 31 ≤ v ∧ v < 2 ^ 31 := hv
    exact Int.bmod_eq_of_le (by norm_num at h ⊢; omega) (by norm_num at h ⊢; omega)
  | unboxedUint32 =>
    have h : 0 ≤ v ∧ v < 2 ^ 32 := hv
    show v % 2 ^ 32 = v
    omega
  | unboxedInt64 | untagged =>
    have h : -2 ^ 63 ≤ v ∧ v < 2 ^ 63 := hv
    exact Int.bmod_eq_of_le (by norm_num at h ⊢; omega) (by norm_num at h ⊢; omega)

/-- Exactly the values of the representation stay. -/
theorem wrap_eq_self_iff : r.wrap v = v ↔ r.Holds v :=
  ⟨fun h => h ▸ holds_wrap r v, wrap_of_holds⟩

/-- Wrapping around keeps the low 32 bits. -/
theorem wrap_emod (r : Representation) (v : ℤ) : r.wrap v % 2 ^ 32 = v % 2 ^ 32 := by
  cases r with
  | unboxedInt32 => exact (bmod_spec (n := 32) (by decide) v).2.2
  | unboxedUint32 => exact Int.emod_emod_of_dvd v dvd_rfl
  | unboxedInt64 | untagged =>
    have h : v.bmod (2 ^ 64) % 2 ^ 64 = v % 2 ^ 64 := (bmod_spec (n := 64) (by decide) v).2.2
    show v.bmod (2 ^ 64) % 2 ^ 32 = v % 2 ^ 32
    omega

/-- For 32 bits only the low bits matter. -/
theorem wrap_congr {w : ℤ} (hr : r.width = 32)
    (h : v % 2 ^ 32 = w % 2 ^ 32) : r.wrap v = r.wrap w := by
  cases r with
  | unboxedInt32 =>
    have h' : v % ((2 ^ 32 : ℕ) : ℤ) = w % ((2 ^ 32 : ℕ) : ℤ) := by exact_mod_cast h
    show v.bmod (2 ^ 32) = w.bmod (2 ^ 32)
    rw [← Int.emod_bmod v, ← Int.emod_bmod w, h']
  | unboxedUint32 => exact h
  | unboxedInt64 | untagged => cases hr

/-- Every value of an integer representation is a 64-bit integer. -/
theorem holds_int64 (h : r.Holds v) : unboxedInt64.Holds v := by
  cases r with
  | unboxedInt32 =>
    have h' : -2 ^ 31 ≤ v ∧ v < 2 ^ 31 := h
    exact ⟨by omega, by omega⟩
  | unboxedUint32 =>
    have h' : 0 ≤ v ∧ v < 2 ^ 32 := h
    exact ⟨by omega, by omega⟩
  | unboxedInt64 | untagged => exact h

/-! ## Ranges -/

/-- A boundary that does not overflow 32 bits is a constant of 32 bits. -/
theorem int32_of_not_overflowed {b : RangeBoundary}
    (h : b.overflowed t .int32 = false) : ∃ v, b = .constant v ∧ -2 ^ 31 ≤ v ∧ v < 2 ^ 31 := by
  cases b with
  | constant v =>
    refine ⟨v, rfl, ?_⟩
    have hmin : minConstant t .int32 = -2 ^ 31 := rfl
    have hmax : maxConstant t .int32 = 2 ^ 31 - 1 := rfl
    rw [overflowed, clamp] at h
    -- Clamping moves every constant outside the interval.
    by_cases hlow : v ≤ minConstant t .int32
    · rw [if_pos hlow] at h
      have : v = minConstant t .int32 := by simpa [equals] using h
      omega
    rw [if_neg hlow] at h
    by_cases hhigh : v ≥ maxConstant t .int32
    · rw [if_pos hhigh] at h
      have : v = maxConstant t .int32 := by simpa [equals] using h
      omega
    · omega
  | unknown => cases h
  | negativeInfinity => cases h
  | positiveInfinity => cases h
  | symbol => cases h

/-- **A range that fits a representation only has values the representation holds.** -/
theorem holds_of_fits {ρ : Valuation} {r : Range} {rep : Representation}
    (hr : r.Valid t ρ) (hv : r.Contains ρ v) (h64 : IsInt64 v) (h : fits t (some r) rep) :
    rep.Holds v := by
  cases rep with
  | unboxedInt32 =>
    simp only [fits, Range.fits, Bool.and_eq_true, Bool.not_eq_true'] at h
    obtain ⟨lo, hlo, hlo', -⟩ := int32_of_not_overflowed h.1
    obtain ⟨hi, hhi, -, hhi'⟩ := int32_of_not_overflowed h.2
    have h1 : lo ≤ v := (bound_constant (d := .min) hr.1 hlo).2 v hv.1
    have h2 : v ≤ hi := (bound_constant (d := .max) hr.2 hhi).2 v hv.2
    exact ⟨by omega, by omega⟩
  | unboxedUint32 =>
    simp only [fits, Range.isWithin, Bool.and_eq_true] at h
    have hb := Range.between_of_contains hr h64 hv
    have h1 := Range.le_constantMin_of_only hr h.1
    have h2 := (Range.constantMax_spec hr).2.2 _ h.2
    exact ⟨h1.trans hb.le, lt_of_le_of_lt (hb.ge.trans h2) (by norm_num)⟩
  | unboxedInt64 => exact isInt64_iff.mp h64
  | untagged => cases h

/-! ## Merging -/

/-- A conversion between the two representations of 32 bits. -/
def Reinterprets (a b : Representation) : Prop :=
  a = unboxedInt32 ∧ b = unboxedUint32 ∨ a = unboxedUint32 ∧ b = unboxedInt32

variable {a b : Representation}

/-- **A converter wraps around**: it computes its input in the target representation. -/
theorem eval_intConverter {env : ℕ → ℤ} {d : Defn} {isTruncating : Bool} {deoptId : Option ℕ}
    {range : Option Range} (hd : a.Holds (d.eval env)) :
    (Defn.intConverter a b d isTruncating deoptId range).eval env = b.wrap (d.eval env) := by
  rw [Defn.eval, convert_ofInt hd, toInt_ofInt]

/-- A reinterpretation keeps exactly the values both representations hold. -/
theorem holds_iff_of_reinterprets (h : Reinterprets a b)
    (hv : a.Holds v) : b.Holds v ↔ 0 ≤ v ∧ v < 2 ^ 31 := by
  rcases h with ⟨rfl, rfl⟩ | ⟨rfl, rfl⟩
  · have hv' : -2 ^ 31 ≤ v ∧ v < 2 ^ 31 := hv
    show 0 ≤ v ∧ v < 2 ^ 32 ↔ 0 ≤ v ∧ v < 2 ^ 31
    omega
  · have hv' : 0 ≤ v ∧ v < 2 ^ 32 := hv
    show -2 ^ 31 ≤ v ∧ v < 2 ^ 31 ↔ 0 ≤ v ∧ v < 2 ^ 31
    omega

/-- **When the middle representation does not matter.** If a first conversion from `int64` keeps the
value, going through `b` only matters for a reinterpretation that is then widened, and there for the
values of which the two representations differ. -/
theorem wrap_wrap_iff {c : Representation} (ha : a.IsInteger) (hb : b.IsInteger) (hc : c.IsInteger)
    (hab : a ≠ b) (hbc : b ≠ c) (hv : a.Holds v) (hfits : a = unboxedInt64 → b.Holds v) :
    c.wrap v = c.wrap (b.wrap v) ↔
      (Reinterprets a b → c = unboxedInt64 → 0 ≤ v ∧ v < 2 ^ 31) := by
  -- A target of 32 bits does not see the bits that the first conversion has changed.
  have hnarrow : c.width = 32 → c ≠ unboxedInt64 → (c.wrap v = c.wrap (b.wrap v) ↔
      (Reinterprets a b → c = unboxedInt64 → 0 ≤ v ∧ v < 2 ^ 31)) := by
    intro hw h64
    apply iff_of_true
    · exact wrap_congr hw (wrap_emod b v).symm
    · exact fun _ hc' => absurd hc' h64
  cases c with
  | unboxedInt32 | unboxedUint32 => exact hnarrow rfl nofun
  | untagged => exact absurd rfl hc
  | unboxedInt64 =>
    rw [wrap_of_holds (holds_int64 hv), wrap_of_holds (holds_int64 (holds_wrap b v)), eq_comm,
      wrap_eq_self_iff]
    have hcases : a = unboxedInt64 ∨ Reinterprets a b := by
      cases a <;> cases b <;> simp_all [Reinterprets, Representation.IsInteger]
    rcases hcases with rfl | hrei
    · refine iff_of_true (hfits rfl) fun hrei => ?_
      rcases hrei with ⟨h, -⟩ | ⟨h, -⟩ <;> cases h
    · rw [holds_iff_of_reinterprets hrei hv]
      exact ⟨fun h _ _ => h, fun h => h hrei rfl⟩

/-- **Canonicalization of nested conversions** `a → b → c`: the definition that `Canonicalize`
returns denotes the value of the conversions, for a source value in its representation and range, if
and only if they are not a reinterpretation of 32 bits followed by a widening, or reinterpretation
keeps the value. -/
theorem canonicalize_denotes_iff {t : Target} {ρ : Valuation} {env : ℕ → ℤ}
    {a b c : Representation} (ha : a.IsInteger) (hb : b.IsInteger) (hc : c.IsInteger) (hab : a ≠ b)
    (hbc : b ≠ c) {src : Defn} (hsrc : a.Holds (src.eval env))
    (hrange : ∀ r ∈ src.range, r.Valid t ρ ∧ r.Contains ρ (src.eval env))
    (hasUses onlyInputUse truncating truncating' : Bool) (deoptId deoptId' : Option ℕ)
    (range range' : Option Range) :
    (∀ d ∈ canonicalize t hasUses onlyInputUse b c
        (.intConverter a b src truncating deoptId range) truncating' deoptId' range',
      d.eval env = (Defn.intConverter b c (.intConverter a b src truncating deoptId range)
        truncating' deoptId' range').eval env) ↔
    (hasUses → Reinterprets a b → c = unboxedInt64 → 0 ≤ src.eval env ∧ src.eval env < 2 ^ 31) := by
  have hinner : (Defn.intConverter a b src truncating deoptId range).eval env =
      b.wrap (src.eval env) := eval_intConverter hsrc
  have houter : (Defn.intConverter b c (.intConverter a b src truncating deoptId range)
      truncating' deoptId' range').eval env = c.wrap (b.wrap (src.eval env)) := by
    rw [eval_intConverter (by rw [hinner]; exact holds_wrap b _), hinner]
  cases hasUses with
  | false => simp [canonicalize]
  | true =>
    simp only [canonicalize, Bool.not_true, Bool.false_eq_true, if_false, if_true, true_implies]
    by_cases herase : a = unboxedInt64 ∧ !fits t src.range b
    · -- The conversions are left alone.
      rw [if_pos herase]
      refine iff_of_true (fun d hd => ?_) fun hrei => ?_
      · cases hd
        rfl
      · rw [herase.1] at hrei
        rcases hrei with ⟨h, -⟩ | ⟨h, -⟩ <;> cases h
    · rw [if_neg herase, houter]
      have hfits : a = unboxedInt64 → b.Holds (src.eval env) := by
        intro ha64
        have hfit : fits t src.range b := by
          by_contra hno
          exact herase ⟨ha64, by simpa using hno⟩
        cases hr : src.range with
        | none =>
          rw [hr] at hfit
          cases hfit
        | some r =>
          rw [hr] at hfit
          obtain ⟨hvalid, hcontains⟩ := hrange r hr
          exact holds_of_fits hvalid hcontains (isInt64_iff.mpr (holds_int64 hsrc)) hfit
      rw [← wrap_wrap_iff ha hb hc hab hbc hsrc hfits]
      by_cases hac : a = c
      · subst hac
        rw [wrap_of_holds hsrc]
        simp
      have hunt : ¬ (a = untagged ∨ c = untagged) := fun h => h.elim ha hc
      rw [if_neg hac, if_neg hunt]
      have hmerged : ∀ d ∈ some (if c = unboxedInt32 ∧ truncating' then
          markTruncating (mkIntConverter a c src (if c = unboxedInt32 then deoptId' else none))
          else mkIntConverter a c src (if c = unboxedInt32 then deoptId' else none)),
          d.eval env = c.wrap (src.eval env) := by
        intro d hd
        cases hd
        split_ifs <;> exact eval_intConverter hsrc
      constructor
      · intro h
        rw [← hmerged _ rfl]
        exact h _ rfl
      · intro h d hd
        rw [hmerged d hd, h]

/-- A definition with the range `[-5, 5]`. -/
def smallDefn : Defn := .other 0 (some ⟨.constant (-5), .constant 5⟩)

/-- That range fits `int32`, so the conversions `int64 → int32 → uint32` are merged. -/
theorem canonicalize_denotes_small :
    ∃ d ∈ canonicalize ⟨62, .inr rfl⟩ true false unboxedInt32 unboxedUint32
        (.intConverter unboxedInt64 unboxedInt32 smallDefn true none none) true none none,
      d.eval (fun _ => -3) = (Defn.intConverter unboxedInt32 unboxedUint32
        (.intConverter unboxedInt64 unboxedInt32 smallDefn true none none)
        true none none).eval fun _ => -3 := by
  have hsrc : unboxedInt64.Holds (smallDefn.eval fun _ => -3) := by
    show -2 ^ 63 ≤ (-3 : ℤ) ∧ (-3 : ℤ) < 2 ^ 63
    decide
  have hrange : ∀ r ∈ smallDefn.range, r.Valid ⟨62, .inr rfl⟩ (fun _ => 0) ∧
      r.Contains (fun _ => 0) (smallDefn.eval fun _ => -3) := by
    intro r hr
    cases hr
    exact ⟨⟨show IsInt64 (-5) by decide, show IsInt64 5 by decide⟩,
      show (-5 : ℤ) ≤ -3 by decide, show (-3 : ℤ) ≤ 5 by decide⟩
  refine ⟨mkIntConverter unboxedInt64 unboxedUint32 smallDefn none, rfl, ?_⟩
  refine (canonicalize_denotes_iff (a := unboxedInt64) (b := unboxedInt32) (c := unboxedUint32)
    (by decide) (by decide) (by decide) (by decide) (by decide) hsrc hrange true false true true
    none none none none).mpr (fun _ h => ?_) _ rfl
  rcases h with ⟨h, -⟩ | ⟨h, -⟩ <;> cases h

/-- **A merged conversion with another value.** `int32 → uint32 → int64` of `-1` is `2^32 - 1`; the
merged conversion `int32 → int64` is `-1`. -/
theorem canonicalize_sign_lost :
    ∃ d ∈ canonicalize ⟨62, .inr rfl⟩ true false unboxedUint32 unboxedInt64
        (.intConverter unboxedInt32 unboxedUint32 (.other 0 none) true none none) false none none,
      d.eval (fun _ => -1) = -1 ∧
      (Defn.intConverter unboxedUint32 unboxedInt64
        (.intConverter unboxedInt32 unboxedUint32 (.other 0 none) true none none)
        false none none).eval (fun _ => -1) = 2 ^ 32 - 1 :=
  ⟨mkIntConverter unboxedInt32 unboxedInt64 (.other 0 none) none, rfl, by decide, by decide⟩

end DartVm.IntConverter
