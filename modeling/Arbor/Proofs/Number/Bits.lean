import Arbor.Number.Layout
import Mathlib

/-!
# Doubles and their bit patterns

A double is printed by its bit pattern.  Whether it is finite, zero or negative, and what its
absolute value is, can be read off that pattern: the sign is the highest bit, and the others, taken
as a natural, are in the order of the magnitudes, with infinity behind the finite ones and what is
not a number behind infinity.

## Main statements

* `Binary64.isNaN_iff`, `Binary64.isFinite_iff`, `Binary64.beq_zero_iff`, `Binary64.lt_zero_iff`.
* `Binary64.abs_eq`: the absolute value has the pattern without its sign.
* `Binary64.toBits_neg`: a negated number has the pattern with the other sign.
-/

namespace Arbor
namespace Binary64

open Float.Model Float.Model.UnpackedFloat

variable {x : Float} {b b' : BitVec 64}

/-- The exponent field is what is left of a pattern without its sign and its lowest 52 bits. -/
theorem toNat_unpackExponent (b : BitVec 64) :
    (@unpackExponent .binary64 b).toNat = unsigned b.toNat / fieldUnit := by
  have split : (@unpackExponent .binary64 b).toNat =
      b.toNat / 2 ^ 52 % 2 ^ 11 := by
    simp [unpackExponent, Nat.shiftRight_eq_div_pow]
  rw [split]
  exact (Nat.mod_mul_right_div_self b.toNat (2 ^ 52) (2 ^ 11)).symm

theorem toNat_unpackMantissa (b : BitVec 64) :
    (@unpackMantissa .binary64 b).toNat = unsigned b.toNat % fieldUnit := by
  have split : (@unpackMantissa .binary64 b).toNat = b.toNat % 2 ^ 52 := by
    simp [unpackMantissa]
  rw [split]
  exact (Nat.mod_mul_right_mod b.toNat (2 ^ 52) (2 ^ 11)).symm

/-- All bits of the exponent field are set: infinity, or what is not a number. -/
theorem unpackExponent_eq_neg_one_iff (b : BitVec 64) :
    @unpackExponent .binary64 b = -1#11 ↔ unsigned b.toNat / 2 ^ 52 = 2047 := by
  rw [← BitVec.toNat_inj, toNat_unpackExponent]
  rfl

theorem unpackMantissa_eq_zero_iff (b : BitVec 64) :
    @unpackMantissa .binary64 b = 0#52 ↔ unsigned b.toNat % 2 ^ 52 = 0 := by
  rw [← BitVec.toNat_inj, toNat_unpackMantissa]
  rfl

/-- The sign of a pattern. -/
def signOf (b : BitVec 64) : Sign :=
  Sign.ofBitVec (@unpackSign .binary64 b)

/-- The sign of a pattern is its highest bit, which says whether the pattern, taken as a natural, is
in the upper half. -/
theorem signOf_eq (b : BitVec 64) :
    signOf b = if isNegative b.toNat then .negative else .positive := by
  have split : (@unpackSign .binary64 b).toNat = b.toNat / 2 ^ 63 % 2 := by
    simp [unpackSign, Nat.shiftRight_eq_div_pow]
  have bound := b.isLt
  have positive : @unpackSign .binary64 b = 0#1 ↔ b.toNat < 2 ^ 63 := by
    rw [← BitVec.toNat_inj, split]
    change b.toNat / 2 ^ 63 % 2 = 0 ↔ b.toNat < 2 ^ 63
    omega
  unfold signOf Sign.ofBitVec isNegative
  simp only [positive]
  by_cases below : b.toNat < 2 ^ 63
  · rw [if_pos below, if_neg]
    exact fun above => absurd (of_decide_eq_true above) (Nat.not_le.mpr below)
  · rw [if_neg below, if_pos]
    exact decide_eq_true (Nat.not_lt.mp below)

/-- What a pattern is, in terms of its unsigned value. -/
inductive Unpacks (b : BitVec 64) : UnpackedFloat → Prop
  | notANumber (beyond : infinityPattern < unsigned b.toNat) : Unpacks b .notANumber
  | infinity (same : unsigned b.toNat = infinityPattern) : Unpacks b (.infinity (signOf b))
  | zero (none : unsigned b.toNat = 0) : Unpacks b (.zero (signOf b))
  | finite {m : Nat} {e : Int} {some : 0 < m} (pos : 0 < unsigned b.toNat)
      (small : unsigned b.toNat < infinityPattern) : Unpacks b (.finite (signOf b) m e some)

/-- Every pattern is one of the four.  What its exponent field and its mantissa hold is decided by
where the unsigned value lies, with infinity as the border. -/
theorem unpacks (b : BitVec 64) : Unpacks b (UnpackedFloat.unpack Format.binary64 b) := by
  have infinite : infinityPattern = 2047 * 2 ^ 52 := rfl
  have bound : unsigned b.toNat < 2 ^ 63 := Nat.mod_lt _ (by decide)
  have full := unpackExponent_eq_neg_one_iff b
  have empty : @unpackExponent .binary64 b = 0#11 ↔
      unsigned b.toNat / 2 ^ 52 = 0 := by
    rw [← BitVec.toNat_inj, toNat_unpackExponent]
    rfl
  have clear := unpackMantissa_eq_zero_iff b
  unfold UnpackedFloat.unpack
  dsimp only
  split <;> rename_i exponent
  · have exponent := full.mp exponent
    split <;> rename_i mantissa
    · have mantissa := clear.mp mantissa
      exact .infinity (by omega)
    · have mantissa := mt clear.mpr mantissa
      exact .notANumber (by omega)
  · have exponent := mt full.mpr exponent
    split <;> rename_i field
    · have field := empty.mp field
      split <;> rename_i mantissa
      · have mantissa := clear.mp mantissa
        exact .zero (by omega)
      · have mantissa := mt clear.mpr mantissa
        exact .finite (by omega) (by omega)
    · have field := mt empty.mpr field
      exact .finite (by omega) (by omega)

/-! ### Predicates of doubles -/

/-- What is not a number is coded behind infinity, by a full exponent field and some mantissa.  The
four cases are those in which a pattern can be unpacked, and each says where the pattern lies. -/
theorem isNaN_iff : x.isNaN = true ↔ infinityPattern < unsigned x.toBits.toNat := by
  have parts := unpacks x.toModel.toBits.toBitVec
  change (UnpackedFloat.unpack Format.binary64 x.toModel.toBits.toBitVec).isNaN = true ↔
    infinityPattern < unsigned x.toModel.toBits.toBitVec.toNat
  generalize UnpackedFloat.unpack Format.binary64 x.toModel.toBits.toBitVec = parts' at *
  cases parts with
  | notANumber beyond => exact iff_of_true rfl beyond
  | infinity same => exact iff_of_false nofun (by omega)
  | zero none => exact iff_of_false nofun (by omega)
  | finite pos small => exact iff_of_false nofun (by omega)

/-- Finite numbers are those coded in front of infinity.  They are the zeros and the patterns whose
exponent field is not full; the other two cases lie at infinity and behind it. -/
theorem isFinite_iff : x.isFinite = true ↔ unsigned x.toBits.toNat < infinityPattern := by
  have parts := unpacks x.toModel.toBits.toBitVec
  change (UnpackedFloat.unpack Format.binary64 x.toModel.toBits.toBitVec).isFinite = true ↔
    unsigned x.toModel.toBits.toBitVec.toNat < infinityPattern
  generalize UnpackedFloat.unpack Format.binary64 x.toModel.toBits.toBitVec = parts' at *
  cases parts with
  | notANumber beyond => exact iff_of_false nofun (by omega)
  | infinity same => exact iff_of_false nofun (by omega)
  | zero none => exact iff_of_true rfl (none ▸ by decide)
  | finite pos small => exact iff_of_true rfl small

theorem unpack_zero : (0 : Float).toModel.unpack = .zero .positive := by
  rfl

/-- A double equals zero if nothing but its sign may be set; the two zeros are equal. -/
theorem beq_zero_iff : (x == 0) = true ↔ unsigned x.toBits.toNat = 0 := by
  have parts := unpacks x.toModel.toBits.toBitVec
  change (UnpackedFloat.unpack Format.binary64 x.toModel.toBits.toBitVec).beq
    (0 : Float).toModel.unpack = true ↔ unsigned x.toModel.toBits.toBitVec.toNat = 0
  rw [unpack_zero]
  generalize UnpackedFloat.unpack Format.binary64 x.toModel.toBits.toBitVec = parts' at *
  have infinite : infinityPattern ≠ 0 := by decide
  cases parts with
  | notANumber beyond => exact iff_of_false nofun (by omega)
  | infinity same => exact iff_of_false (by cases signOf _ <;> exact nofun) (by omega)
  | zero none => exact iff_of_true rfl none
  | finite pos small => exact iff_of_false (by cases signOf _ <;> exact nofun) (by omega)

/-- A finite double other than zero is negative exactly if its sign says so.  Zero is left out,
since it has two signs and is never less than itself. -/
theorem lt_zero_iff (finite : x.isFinite = true) (nonzero : ¬ (x == 0) = true) :
    x < 0 ↔ isNegative x.toBits.toNat = true := by
  rw [isFinite_iff] at finite
  rw [beq_zero_iff] at nonzero
  have parts := unpacks x.toModel.toBits.toBitVec
  have sign := signOf_eq x.toModel.toBits.toBitVec
  have lt : x < 0 ↔ (UnpackedFloat.unpack Format.binary64 x.toModel.toBits.toBitVec).lt
      (0 : Float).toModel.unpack = true := by
    change decide (x.toModel < (0 : Float).toModel) = true ↔ _
    rw [decide_eq_true_iff]
    rfl
  rw [lt, unpack_zero]
  generalize UnpackedFloat.unpack Format.binary64 x.toModel.toBits.toBitVec = parts' at *
  change unsigned x.toModel.toBits.toBitVec.toNat < infinityPattern at finite
  change ¬ unsigned x.toModel.toBits.toBitVec.toNat = 0 at nonzero
  change _ ↔ isNegative x.toModel.toBits.toBitVec.toNat = true
  cases parts with
  | notANumber beyond => omega
  | infinity same => omega
  | zero none => omega
  | finite pos small =>
    rw [sign]
    cases isNegative x.toModel.toBits.toBitVec.toNat with
    | false => exact iff_of_false nofun nofun
    | true => exact iff_of_true rfl rfl

/-! ### The absolute value -/

/-- Two patterns of equal fields are unpacked alike but for the sign, in each of the four cases. -/
theorem abs_unpack (same : unsigned b'.toNat = unsigned b.toNat) (positive : signOf b' = .positive) :
    (UnpackedFloat.unpack Format.binary64 b).abs = UnpackedFloat.unpack Format.binary64 b' := by
  have exponent : @unpackExponent .binary64 b' = @unpackExponent .binary64 b := by
    rw [← BitVec.toNat_inj, toNat_unpackExponent, toNat_unpackExponent, same]
  have mantissa : @unpackMantissa .binary64 b' = @unpackMantissa .binary64 b := by
    rw [← BitVec.toNat_inj, toNat_unpackMantissa, toNat_unpackMantissa, same]
  unfold signOf at positive
  unfold UnpackedFloat.unpack
  simp only [exponent, mantissa, positive]
  split
  · split <;> rfl
  · split
    · split <;> rfl
    · rfl

/-- The absolute value has the pattern without its sign.  Unpacking it differs in the sign only, and
packing what was unpacked gives the pattern back. -/
theorem abs_eq (x : Float) : x.abs = Float.ofBits (UInt64.ofNat (unsigned x.toBits.toNat)) := by
  have bound : unsigned x.toBits.toNat < 2 ^ 63 := Nat.mod_lt _ (by decide)
  have same : (UInt64.ofNat (unsigned x.toBits.toNat)).toBitVec.toNat = unsigned x.toBits.toNat :=
    UInt64.toNat_ofNat_of_lt' (Nat.lt_trans bound (by decide))
  have positive : signOf (UInt64.ofNat (unsigned x.toBits.toNat)).toBitVec = .positive := by
    rw [signOf_eq, same, if_neg]
    exact fun above => absurd (of_decide_eq_true above) (Nat.not_le.mpr bound)
  have unsigned_unsigned : unsigned (unsigned x.toBits.toNat) = unsigned x.toBits.toNat :=
    Nat.mod_mod _ _
  have parts := @abs_unpack x.toModel.toBits.toBitVec
    (UInt64.ofNat (unsigned x.toBits.toNat)).toBitVec (by rw [same, unsigned_unsigned]; rfl) positive
  unfold Float.abs Float.ofBits
  congr 1
  exact congrArg Float.Model.pack parts

/-! ### Packing and negation -/

/-- A pattern of what is not a number lies behind infinity, as it does for doubles. -/
theorem isNaNBits_iff :
    @isNaNBits .binary64 b = true ↔ infinityPattern < unsigned b.toNat := by
  have infinite : infinityPattern = 2047 * 2 ^ 52 := rfl
  have bound : unsigned b.toNat < 2 ^ 63 := Nat.mod_lt _ (by decide)
  unfold isNaNBits
  rw [decide_eq_true_iff]
  refine (and_congr (unpackExponent_eq_neg_one_iff b)
    (not_congr (unpackMantissa_eq_zero_iff b))).trans ?_
  omega

/-- A pattern that stands for a number is kept by a double as it is. -/
theorem pack_unpack_of_le (number : unsigned b.toNat ≤ infinityPattern) :
    UnpackedFloat.pack Format.binary64 (UnpackedFloat.unpack Format.binary64 b) = b := by
  rw [@pack_unpack .binary64 b (by decide), if_neg]
  exact mt isNaNBits_iff.mp (Nat.not_lt.mpr number)

/-- The double made from a pattern has that pattern again, unless it is not a number: of those there
are many patterns, and a double keeps one. -/
theorem toBits_ofBits {bits : UInt64} (number : unsigned bits.toNat ≤ infinityPattern) :
    (Float.ofBits bits).toBits = bits := by
  change UInt64.ofBitVec (UnpackedFloat.pack Format.binary64
    (UnpackedFloat.unpack Format.binary64 bits.toBitVec)) = bits
  rw [pack_unpack_of_le number]

/-- The double made from the pattern of a finite number has that pattern. -/
theorem toNat_toBits_ofBits {pattern : Nat} (small : pattern < infinityPattern) :
    (Float.ofBits (UInt64.ofNat pattern)).toBits.toNat = pattern := by
  have toNat : (UInt64.ofNat pattern).toNat = pattern :=
    UInt64.toNat_ofNat_of_lt' (Nat.lt_trans small (by decide))
  rw [toBits_ofBits, toNat]
  rw [toNat]
  exact Nat.le_trans (Nat.mod_le _ _) (Nat.le_of_lt small)

/-- The pattern with the other sign. -/
def flipped (b : BitVec 64) : BitVec 64 :=
  packComponents Format.binary64 (-signOf b) (unpackExponent b) (unpackMantissa b)

theorem unpackExponent_flipped (b : BitVec 64) :
    @unpackExponent .binary64 (flipped b) = @unpackExponent .binary64 b :=
  unpackExponent_packComponents

theorem unpackMantissa_flipped (b : BitVec 64) :
    @unpackMantissa .binary64 (flipped b) = @unpackMantissa .binary64 b :=
  unpackMantissa_packComponents

/-- The pattern with the other sign has the other sign, and the same two fields. -/
theorem signOf_flipped (b : BitVec 64) : signOf (flipped b) = -signOf b := by
  unfold signOf flipped
  rw [unpackSign_packComponents, Sign.ofBitVec_toBitVec]
  rfl

/-- Without its sign the pattern is the same. -/
theorem unsigned_flipped (b : BitVec 64) : unsigned (flipped b).toNat = unsigned b.toNat := by
  have exponent := toNat_unpackExponent (flipped b)
  have mantissa := toNat_unpackMantissa (flipped b)
  rw [unpackExponent_flipped, toNat_unpackExponent] at exponent
  rw [unpackMantissa_flipped, toNat_unpackMantissa] at mantissa
  rw [← Nat.div_add_mod' (unsigned (flipped b).toNat) fieldUnit, ← exponent, ← mantissa,
    Nat.div_add_mod']

/-- Flipping the sign bit makes a negative pattern of a positive one, and the other way round. -/
theorem isNegative_flipped (b : BitVec 64) :
    isNegative (flipped b).toNat = !isNegative b.toNat := by
  have sign := signOf_flipped b
  rw [signOf_eq, signOf_eq] at sign
  cases one : isNegative b.toNat <;> cases other : isNegative (flipped b).toNat <;>
    rw [one, other] at sign
  · exact nomatch sign
  · rfl
  · rfl
  · exact nomatch sign

/-- Negation changes the sign and neither of the fields, in whichever of the four cases it is. -/
theorem neg_unpack (b : BitVec 64) : (UnpackedFloat.unpack Format.binary64 b).neg =
    UnpackedFloat.unpack Format.binary64 (flipped b) := by
  have sign := signOf_flipped b
  unfold signOf at sign
  unfold UnpackedFloat.unpack
  simp only [unpackExponent_flipped, unpackMantissa_flipped, sign]
  split
  · split <;> rfl
  · split
    · split <;> rfl
    · rfl

/-- A number is negated by the sign of its pattern alone. -/
theorem toBits_neg (number : unsigned x.toBits.toNat ≤ infinityPattern) :
    (-x).toBits.toBitVec = flipped x.toBits.toBitVec := by
  change UnpackedFloat.pack Format.binary64
    (UnpackedFloat.unpack Format.binary64 x.toBits.toBitVec).neg = flipped x.toBits.toBitVec
  rw [neg_unpack]
  exact pack_unpack_of_le ((unsigned_flipped x.toBits.toBitVec).trans_le number)

end Binary64
end Arbor
