import Arbor.Proofs.Number.Bits
import Arbor.Proofs.Number.Rounding
import Arbor.Tree

/-!
# The double nearest to an integer

An integer that is loaded as a number becomes a double.  It is the nearest one: no finite double is
closer to the integer, and where another one is as close, the last bit of the one taken is zero.
Integers that lie a half step or more beyond the largest double are too large.

The doubles are compared on the grid that rounding itself uses, the multiples of the last bit kept.
Those of larger exponents are on that grid too; those of smaller ones are all below the power of two
from which the grid begins, and so farther away than that power.

## Main definitions

* `Binary64.rational`: the rational that a finite double stands for.
* `Binary64.Nearest`: the nearest double, of two the even one.

## Main statements

* `Binary64.Rounds.le_of_canonical`: no double is nearer to a fraction than what it is rounded to.
* `Tree.nearest_of_doubleOfInt`, `Tree.doubleOfInt_eq_error_iff`: what an integer becomes.
-/

namespace Arbor
namespace Binary64

variable {num den : ℕ} {v : ℚ} {exponent : ℤ} {r : ℕ}

/-! ### Rounding a quotient -/

/-- A quotient and what it is rounded to are at most a half apart, and if they are a half apart the
result is even. -/
theorem roundHalfEven_spec (num : ℕ) (den_pos : 0 < den) :
    |(roundHalfEven num den : ℚ) - num / den| ≤ 1 / 2 ∧
      (|(roundHalfEven num den : ℚ) - num / den| = 1 / 2 → roundHalfEven num den % 2 = 0) := by
  have den_pos' : (0 : ℚ) < den := by exact_mod_cast den_pos
  have divided : (num / den : ℚ) = (num / den : ℕ) + (num % den : ℕ) / (den : ℚ) := by
    rw [eq_comm, eq_div_iff den_pos'.ne', add_mul, div_mul_cancel₀ _ den_pos'.ne']
    exact_mod_cast Nat.div_add_mod' num den
  have rest := Nat.mod_lt num den_pos
  rw [divided]
  unfold roundHalfEven
  generalize num / den = quotient
  generalize num % den = left at rest
  dsimp only
  have rest' : (left / den : ℚ) < 1 := by
    rw [div_lt_one den_pos']
    exact_mod_cast rest
  have nonneg : (0 : ℚ) ≤ left / den := by positivity
  have more : den < 2 * left ↔ (1 / 2 : ℚ) < left / den := by
    rw [lt_div_iff₀ den_pos', ← Nat.cast_lt (α := ℚ), Nat.cast_mul, Nat.cast_ofNat]
    constructor <;> intro less <;> linarith
  have half : den = 2 * left ↔ (1 / 2 : ℚ) = left / den := by
    rw [eq_div_iff den_pos'.ne', ← Nat.cast_inj (R := ℚ), Nat.cast_mul, Nat.cast_ofNat]
    constructor <;> intro same <;> linarith
  split
  · next up =>
    have least : (1 / 2 : ℚ) ≤ left / den := by
      rcases up with up | ⟨up, -⟩
      · exact (more.mp up).le
      · exact (half.mp up).le
    have apart : (((quotient + 1 : ℕ) : ℚ) - (quotient + left / den)) = 1 - left / den := by
      push_cast
      ring
    rw [apart, abs_of_nonneg (by linarith)]
    refine ⟨by linarith, fun tie => ?_⟩
    have exact_half := half.mpr (by linarith)
    rcases up with up | ⟨-, odd⟩ <;> omega
  · next down =>
    rw [not_or, not_and] at down
    obtain ⟨less, even⟩ := down
    have most : (left / den : ℚ) ≤ 1 / 2 := not_lt.mp (mt more.mpr less)
    have apart : ((quotient : ℚ) - (quotient + left / den)) = -(left / den) := by ring
    rw [apart, abs_neg, abs_of_nonneg nonneg]
    refine ⟨most, fun tie => ?_⟩
    have := even (half.mpr tie.symm)
    omega

/-! ### Rounding to the grid -/

/-- A rational is rounded to `r` units of the last bit that is kept, of two nearest to the even
one. -/
structure Rounds (v : ℚ) (exponent : ℤ) (r : ℕ) : Prop where
  keeps : Keeps v exponent
  near : |(r : ℚ) - v / 2 ^ exponent| ≤ 1 / 2
  even : |(r : ℚ) - v / 2 ^ exponent| = 1 / 2 → r % 2 = 0

/-- A fraction is rounded on the grid of its last bit, and counted on from there.  What is too large
for a double is cut off at infinity, which is why the minimum is taken. -/
theorem exists_rounds (num_pos : 0 < num) (den_pos : 0 < den) :
    ∃ exponent r, Rounds (num / den) exponent r ∧ ofFraction num den =
      min infinityPattern ((exponent - leastExponent).toNat * fieldUnit + r) := by
  refine ⟨lastExponent num den, roundHalfEven (scale num den (lastExponent num den)).1
    (scale num den (lastExponent num den)).2, ?_, by rw [ofFraction, if_neg num_pos.ne']⟩
  obtain ⟨near, even⟩ := roundHalfEven_spec (scale num den (lastExponent num den)).1
    (scale_snd_pos num den_pos (lastExponent num den))
  rw [scale_div, zpow_neg, ← div_eq_mul_inv] at near even
  exact ⟨keeps_lastExponent num_pos den_pos, near, even⟩

namespace Rounds

theorem unit_pos (exponent : ℤ) : (0 : ℚ) < 2 ^ exponent := by positivity

/-- Distances on the grid, in units. -/
theorem abs_sub_eq (v : ℚ) (exponent : ℤ) (w : ℚ) :
    |w * 2 ^ exponent - v| = |w - v / 2 ^ exponent| * 2 ^ exponent := by
  have unit := unit_pos exponent
  rw [← abs_of_pos unit, ← abs_mul, abs_of_pos unit, sub_mul, div_mul_cancel₀ _ unit.ne']

/-- What is rounded is below 53 bits, counted in units of the last one. -/
theorem div_lt (rounds : Rounds v exponent r) : v / 2 ^ exponent < 2 ^ 53 := by
  rw [div_lt_iff₀ (unit_pos exponent), mul_comm, ← zpow_natCast, ← zpow_add₀ (by norm_num)]
  exact rounds.keeps.below

/-- It has its leading bit among these, unless the exponent is the least there is. -/
theorem le_div (rounds : Rounds v exponent r) :
    exponent = leastExponent ∨ 2 ^ 52 ≤ v / 2 ^ exponent := by
  refine rounds.keeps.above.imp_right fun above => ?_
  rw [le_div_iff₀ (unit_pos exponent), mul_comm, ← zpow_natCast, ← zpow_add₀ (by norm_num)]
  exact above

/-- What is rounded has 53 bits, or is the next power of two. -/
theorem le (rounds : Rounds v exponent r) : r ≤ 2 ^ 53 := by
  obtain ⟨-, upper⟩ := abs_le.mp rounds.near
  have below := rounds.div_lt
  have less : (r : ℚ) < 2 ^ 53 + 1 := by linarith
  have less : r < 2 ^ 53 + 1 := by exact_mod_cast less
  omega

/-- So has the result, since the bounds are naturals and rounding does not cross them downward. -/
theorem ge (rounds : Rounds v exponent r) : exponent = leastExponent ∨ 2 ^ 52 ≤ r := by
  refine rounds.le_div.imp_right fun above => ?_
  obtain ⟨lower, -⟩ := abs_le.mp rounds.near
  have less : (2 : ℚ) ^ 52 < r + 1 := by linarith
  have less : 2 ^ 52 < r + 1 := by exact_mod_cast less
  omega

/-- No other point of the grid is nearer, and if one is as near, the result is even.  Two points are
a unit apart, so by the triangle inequality the other one is a half away at least, which is as far
as the result can be. -/
theorem le_of_grid (rounds : Rounds v exponent r) (k : ℕ) :
    |(r : ℚ) * 2 ^ exponent - v| ≤ |(k : ℚ) * 2 ^ exponent - v| ∧
      (k ≠ r → |(k : ℚ) * 2 ^ exponent - v| = |(r : ℚ) * 2 ^ exponent - v| → r % 2 = 0) := by
  have unit := unit_pos exponent
  rw [abs_sub_eq, abs_sub_eq]
  rcases eq_or_ne k r with rfl | differ
  · exact ⟨le_refl _, fun other => absurd rfl other⟩
  · have step : (1 : ℚ) ≤ |(k : ℚ) - r| := by
      have whole : (1 : ℤ) ≤ |(k : ℤ) - r| := Int.one_le_abs (by omega)
      exact_mod_cast whole
    have triangle := abs_sub_le (k : ℚ) (v / 2 ^ exponent) r
    rw [abs_sub_comm (v / 2 ^ exponent) (r : ℚ)] at triangle
    have near := rounds.near
    refine ⟨mul_le_mul_of_nonneg_right (by linarith) unit.le, fun _ tie => rounds.even ?_⟩
    have same := mul_right_cancel₀ unit.ne' tie
    linarith

/-- A double is on the grid, or is farther away than the power of two from which the grid begins.
If its exponent is no smaller than that of the grid, it is a multiple of the unit; if it is smaller,
then all its 53 bits stay below that power. -/
theorem grid_or_far (rounds : Rounds v exponent r) {m : Magnitude} (canonical : m.Canonical) :
    (∃ k : ℕ, m.value = k * 2 ^ exponent) ∨
      |((2 ^ 52 : ℕ) : ℚ) * 2 ^ exponent - v| < |m.value - v| := by
  have two : (2 : ℚ) ≠ 0 := by norm_num
  rcases le_or_gt exponent m.exponent with coarse | fine
  · left
    obtain ⟨steps, same⟩ := Int.eq_ofNat_of_zero_le (sub_nonneg.mpr coarse)
    refine ⟨m.significand * 2 ^ steps, ?_⟩
    have split : m.exponent = steps + exponent := by omega
    rw [Magnitude.value, split, zpow_add₀ two, zpow_natCast]
    push_cast
    ring
  · right
    have above := rounds.keeps.above.resolve_left fun least => by
      have := canonical.least
      omega
    have significand : (m.significand : ℚ) < 2 ^ 53 := by exact_mod_cast canonical.below
    have less : m.value < 2 ^ (exponent + 52) := by
      calc m.value < 2 ^ 53 * 2 ^ m.exponent :=
            mul_lt_mul_of_pos_right significand (unit_pos m.exponent)
        _ = 2 ^ (m.exponent + 53) := by
            rw [← zpow_natCast, ← zpow_add₀ two]
            congr 1
            push_cast
            ring
        _ ≤ 2 ^ (exponent + 52) := zpow_le_zpow_right₀ (by norm_num) (by omega)
    have power : ((2 ^ 52 : ℕ) : ℚ) * 2 ^ exponent = 2 ^ (exponent + 52) := by
      rw [zpow_add₀ two, mul_comm]
      norm_num
    rw [power, abs_of_nonpos (by linarith), abs_of_nonpos (by linarith)]
    linarith

/-- No double is nearer than the result, and if another one is as near, the result is even.  A
double off the grid is further away than a point of the grid is, the one at which the binade
begins. -/
theorem le_of_canonical (rounds : Rounds v exponent r) {m : Magnitude}
    (canonical : m.Canonical) :
    |(r : ℚ) * 2 ^ exponent - v| ≤ |m.value - v| ∧
      (m.value ≠ r * 2 ^ exponent →
        |m.value - v| = |(r : ℚ) * 2 ^ exponent - v| → r % 2 = 0) := by
  rcases rounds.grid_or_far canonical with ⟨k, same⟩ | far
  · rw [same]
    obtain ⟨near, even⟩ := rounds.le_of_grid k
    exact ⟨near, fun differ => even fun equal => differ (by rw [equal])⟩
  · have near := (rounds.le_of_grid (2 ^ 52)).1
    exact ⟨by linarith, fun _ tie => by linarith⟩

end Rounds

/-- The pattern counted from a significand and its exponent stands for the two of them, also where
the significand is the next power of two and carries into the exponent. -/
theorem value_magnitude_of_parts {exponent : ℤ} {r : ℕ} (least : leastExponent ≤ exponent)
    (below : r ≤ 2 ^ 53) (above : exponent = leastExponent ∨ 2 ^ 52 ≤ r)
    (small : (exponent - leastExponent).toNat * fieldUnit + r < infinityPattern) :
    (magnitude ((exponent - leastExponent).toNat * fieldUnit + r)).value = r * 2 ^ exponent := by
  have coded := eq_of_magnitude small
  obtain ⟨least', below', above'⟩ := canonical_magnitude
    ((exponent - leastExponent).toNat * fieldUnit + r)
  unfold Magnitude.value
  generalize (magnitude ((exponent - leastExponent).toNat * fieldUnit + r)).significand = s at *
  generalize (magnitude ((exponent - leastExponent).toNat * fieldUnit + r)).exponent = e at *
  have unit : fieldUnit = 2 ^ 52 := rfl
  rw [unit] at coded
  rcases lt_trichotomy e exponent with less | rfl | more
  · omega
  · have same : r = s := by omega
    rw [same]
  · have next : e = exponent + 1 := by omega
    have full : r = 2 * s := by
      rw [next] at coded
      omega
    rw [next, full, zpow_add_one₀ (by norm_num)]
    push_cast
    ring

/-! ### Beyond the largest double -/

/-- A half step beyond the largest double, in units of its last bit. -/
theorem halfway_infinity : (2 ^ 1024 - 2 ^ 970 : ℚ) = (2 ^ 53 - 1 / 2) * 2 ^ (971 : ℤ) := by
  have top : (2 : ℚ) ^ 1024 = 2 ^ 53 * 2 ^ 971 := pow_add 2 53 971
  have step : (2 : ℚ) ^ 971 = 2 ^ 970 * 2 := pow_succ 2 970
  have last : (2 : ℚ) ^ (971 : ℤ) = 2 ^ 971 := zpow_natCast 2 971
  rw [last, top, step]
  generalize (2 : ℚ) ^ 970 = x
  ring

/-- What is rounded leaves the finite patterns exactly if it lies a half step or more beyond the
largest double: a half is rounded up there, because the largest double is odd. -/
theorem Rounds.infinityPattern_le_iff (rounds : Rounds v exponent r) :
    infinityPattern ≤ (exponent - leastExponent).toNat * fieldUnit + r ↔
      2 ^ 1024 - 2 ^ 970 ≤ v := by
  have unit : fieldUnit = 2 ^ 52 := rfl
  have infinite : infinityPattern = 2047 * 2 ^ 52 := rfl
  have least_eq : leastExponent = -1074 := rfl
  have least := rounds.keeps.least
  have most := rounds.le
  have ge := rounds.ge
  have unit_pos := Rounds.unit_pos exponent
  rw [infinite, unit, halfway_infinity]
  rcases lt_trichotomy exponent 971 with less | rfl | more
  · have below : v < 2 ^ (52 + 971 : ℤ) :=
      lt_of_lt_of_le rounds.keeps.below (zpow_le_zpow_right₀ (by norm_num) (by omega))
    rw [zpow_add₀ (by norm_num)] at below
    refine iff_of_false (by omega) (not_le.mpr (lt_of_lt_of_le below ?_))
    exact mul_le_mul_of_nonneg_right (by norm_num) (Rounds.unit_pos 971).le
  · rw [← le_div_iff₀ unit_pos]
    obtain ⟨lower, upper⟩ := abs_le.mp rounds.near
    have even := rounds.even
    generalize v / 2 ^ (971 : ℤ) = w at *
    have full : 2047 * 2 ^ 52 ≤ ((971 : ℤ) - leastExponent).toNat * 2 ^ 52 + r ↔ r = 2 ^ 53 := by
      omega
    rw [full]
    constructor
    · rintro rfl
      push_cast at upper
      linarith
    · intro beyond
      have above : (2 : ℚ) ^ 53 - 1 ≤ r := by linarith
      have above : 2 ^ 53 - 1 ≤ r := by
        have : (2 : ℚ) ^ 53 ≤ r + 1 := by linarith
        have : 2 ^ 53 ≤ r + 1 := by exact_mod_cast this
        omega
      by_contra other
      have odd : r = 2 ^ 53 - 1 := by omega
      have odd' : (r : ℚ) = 2 ^ 53 - 1 := by
        rw [odd]
        norm_num
      have tie : |(r : ℚ) - w| = 1 / 2 := by
        rw [abs_of_nonpos (by linarith)]
        linarith
      have := even tie
      omega
  · have above := rounds.keeps.above.resolve_left (by omega)
    have atLeast : (2 : ℚ) ^ (53 + 971 : ℤ) ≤ v :=
      le_trans (zpow_le_zpow_right₀ (by norm_num) (by omega)) above
    rw [zpow_add₀ (by norm_num)] at atLeast
    refine iff_of_true (by omega) (le_trans ?_ atLeast)
    exact mul_le_mul_of_nonneg_right (by norm_num) (Rounds.unit_pos 971).le

/-- A fraction is rounded to infinity exactly if it lies a half step or more beyond the largest
double. -/
theorem ofFraction_eq_infinityPattern_iff (num_pos : 0 < num) (den_pos : 0 < den) :
    ofFraction num den = infinityPattern ↔ (2 ^ 1024 - 2 ^ 970 : ℚ) ≤ num / den := by
  obtain ⟨exponent, r, rounds, rounded⟩ := exists_rounds num_pos den_pos
  rw [rounded, min_eq_left_iff, rounds.infinityPattern_le_iff]

/-- No finite pattern is nearer to a fraction than the one it is rounded to, and if another one is as
near, the one it is rounded to is even. -/
theorem ofFraction_nearest (num_pos : 0 < num) (den_pos : 0 < den)
    (finite : ofFraction num den < infinityPattern) {m : Magnitude} (canonical : m.Canonical) :
    |(magnitude (ofFraction num den)).value - num / den| ≤ |m.value - num / den| ∧
      (m.value ≠ (magnitude (ofFraction num den)).value →
        |m.value - num / den| = |(magnitude (ofFraction num den)).value - num / den| →
          ofFraction num den % 2 = 0) := by
  obtain ⟨exponent, r, rounds, rounded⟩ := exists_rounds num_pos den_pos
  have small : (exponent - leastExponent).toNat * fieldUnit + r < infinityPattern := by
    rw [rounded] at finite
    exact (min_lt_iff.mp finite).resolve_left (lt_irrefl _)
  rw [min_eq_right small.le] at rounded
  rw [rounded, value_magnitude_of_parts rounds.keeps.least rounds.le rounds.ge small]
  obtain ⟨near, even⟩ := rounds.le_of_canonical canonical
  refine ⟨near, fun differ tie => ?_⟩
  have := even differ tie
  have unit : fieldUnit = 2 * 2 ^ 51 := rfl
  rw [unit]
  omega

/-! ### Doubles as rationals -/

variable {x : Float}

/-- The rational that a finite double stands for. -/
def rational (x : Float) : ℚ :=
  if isNegative x.toBits.toNat then -(magnitude x.toBits.toNat).value
  else (magnitude x.toBits.toNat).value

/-- A double is the nearest one to a rational: no finite double is closer, and where a different
one is as close, the last bit of the one taken is zero. -/
structure Nearest (v : ℚ) (x : Float) : Prop where
  finite : x.isFinite = true
  near : ∀ y : Float, y.isFinite = true → |rational x - v| ≤ |rational y - v|
  even : ∀ y : Float, y.isFinite = true → rational y ≠ rational x →
    |rational y - v| = |rational x - v| → x.toBits.toNat % 2 = 0

/-- The magnitude of a pattern does not depend on its sign. -/
theorem magnitude_congr {pattern pattern' : ℕ} (same : unsigned pattern = unsigned pattern') :
    magnitude pattern = magnitude pattern' := by
  unfold magnitude
  rw [same]

/-- A negated number stands for the negated rational: only the sign of its pattern differs.  The
magnitude is read from the other bits. -/
theorem rational_neg (finite : x.isFinite = true) : rational (-x) = -rational x := by
  have bits := toBits_neg (isFinite_iff.mp finite).le
  have same : (-x).toBits.toNat = (flipped x.toBits.toBitVec).toNat := congrArg BitVec.toNat bits
  unfold rational
  rw [same, magnitude_congr (unsigned_flipped x.toBits.toBitVec), isNegative_flipped]
  change (if (!isNegative x.toBits.toNat) = true then -(magnitude x.toBits.toNat).value
    else (magnitude x.toBits.toNat).value) = _
  cases isNegative x.toBits.toNat
  · rfl
  · exact (neg_neg _).symm

/-- A negated number has the same pattern but for the sign. -/
theorem unsigned_neg (number : unsigned x.toBits.toNat ≤ infinityPattern) :
    unsigned (-x).toBits.toNat = unsigned x.toBits.toNat := by
  have same : (-x).toBits.toNat = (flipped x.toBits.toBitVec).toNat :=
    congrArg BitVec.toNat (toBits_neg number)
  rw [same, unsigned_flipped]
  rfl

/-- Negation keeps numbers finite. -/
theorem isFinite_neg (finite : x.isFinite = true) : (-x).isFinite = true := by
  rw [isFinite_iff] at finite ⊢
  rwa [unsigned_neg finite.le]

/-- The last bit of a pattern is not its sign. -/
theorem unsigned_mod_two (pattern : ℕ) : unsigned pattern % 2 = pattern % 2 := by
  unfold unsigned
  exact Nat.mod_mul_right_mod pattern 2 (2 ^ 62)

/-- What is nearest to a rational is, negated, nearest to the negated rational.  Distances are
mirrored, and whether a pattern is even is not a matter of its sign. -/
theorem Nearest.neg (nearest : Nearest v x) : Nearest (-v) (-x) := by
  have mirrored : ∀ w : ℚ, |-w - -v| = |w - v| := fun w => by
    rw [neg_sub_neg, abs_sub_comm]
  have mirrored' : ∀ w : ℚ, |w - -v| = |-w - v| := fun w => by
    rw [← mirrored (-w), neg_neg]
  have negated := rational_neg nearest.finite
  refine ⟨isFinite_neg nearest.finite, fun y finite => ?_, fun y finite differ tie => ?_⟩
  · rw [negated, mirrored, mirrored', ← rational_neg finite]
    exact nearest.near (-y) (isFinite_neg finite)
  · rw [negated] at differ tie
    rw [mirrored, mirrored', ← rational_neg finite] at tie
    rw [← unsigned_mod_two, unsigned_neg (isFinite_iff.mp nearest.finite).le, unsigned_mod_two]
    refine nearest.even (-y) (isFinite_neg finite) (fun same => differ ?_) tie
    rw [← same, rational_neg finite, neg_neg]

/-- A magnitude that is nearest among the magnitudes to a rational above zero is nearest among all
doubles: a negative one is on the other side of zero, and farther away than its absolute value. -/
theorem nearest_of_magnitude (pos : 0 < v) (finite : x.isFinite = true)
    (positive : isNegative x.toBits.toNat = false)
    (nearest : ∀ m : Magnitude, m.Canonical →
      |(magnitude x.toBits.toNat).value - v| ≤ |m.value - v| ∧
        (m.value ≠ (magnitude x.toBits.toNat).value →
          |m.value - v| = |(magnitude x.toBits.toNat).value - v| →
            x.toBits.toNat % 2 = 0)) : Nearest v x := by
  have value_eq : rational x = (magnitude x.toBits.toNat).value := by
    unfold rational
    rw [positive]
    rfl
  rw [← value_eq] at nearest
  -- What a double of either sign has to do with its magnitude.
  have farther : ∀ y : Float, |(magnitude y.toBits.toNat).value - v| ≤ |rational y - v| ∧
      (rational y = (magnitude y.toBits.toNat).value ∨
        rational y = -(magnitude y.toBits.toNat).value) := fun y => by
    have nonneg : 0 ≤ (magnitude y.toBits.toNat).value := by
      unfold Magnitude.value
      positivity
    unfold rational
    split
    · refine ⟨?_, .inr rfl⟩
      rw [← neg_add', abs_neg, abs_of_nonneg (by linarith : 0 ≤ (magnitude y.toBits.toNat).value + v)]
      exact abs_le.mpr ⟨by linarith, by linarith⟩
    · exact ⟨le_refl _, .inl rfl⟩
  refine ⟨finite, fun y _ => ?_, fun y _ differ tie => ?_⟩
  · exact (nearest _ (canonical_magnitude y.toBits.toNat)).1.trans (farther y).1
  · obtain ⟨near, even⟩ := nearest _ (canonical_magnitude y.toBits.toNat)
    obtain ⟨less, side⟩ := farther y
    refine even (fun same => ?_) (le_antisymm (less.trans tie.le) near)
    rcases side with side | side
    · exact differ (side.trans same)
    · rw [side, same] at differ tie
      rw [abs_eq_abs] at tie
      rcases tie with tie | tie
      · exact differ (by linarith)
      · linarith

end Binary64

namespace Tree

open Binary64

variable {n : Int} {x : Float} {e : TreeError}

/-- The absolute value of an integer as the fraction that is rounded. -/
theorem natAbs_div_one (n : Int) : ((n.natAbs : ℚ) / (1 : ℕ)) = |(n : ℚ)| := by
  rw [Nat.cast_one, div_one, Nat.cast_natAbs, Int.cast_abs]

/-- The absolute value of an integer is rounded to infinity exactly if it lies a half step or more
beyond the largest double.  Zero is no exception, although it has no first bit to count from. -/
theorem ofFraction_natAbs_eq_iff (n : Int) :
    ofFraction n.natAbs 1 = infinityPattern ↔ (2 ^ 1024 - 2 ^ 970 : ℚ) ≤ |(n : ℚ)| := by
  rcases eq_or_ne n 0 with rfl | nonzero
  · refine iff_of_false (by decide) ?_
    rw [Int.cast_zero, abs_zero, not_le, sub_pos]
    exact pow_lt_pow_right₀ (by norm_num) (by norm_num)
  · rw [ofFraction_eq_infinityPattern_iff (Int.natAbs_pos.mpr nonzero) one_pos, natAbs_div_one]

/-- An integer is too large exactly if it lies a half step or more beyond the largest double, on
either side of zero; nothing else can be wrong with it. -/
theorem doubleOfInt_eq_error_iff : doubleOfInt n = .error e ↔
    e = .numberTooLarge ∧ (2 ^ 1024 - 2 ^ 970 : ℚ) ≤ |(n : ℚ)| := by
  unfold doubleOfInt
  dsimp only
  rw [← ofFraction_natAbs_eq_iff]
  split
  · next same => exact ⟨fun failed => ⟨(Except.error.inj failed).symm, same⟩,
      fun ⟨same', _⟩ => congrArg _ same'.symm⟩
  · next other => exact ⟨nofun, fun ⟨_, same⟩ => absurd same other⟩

/-- The absolute value of an integer is rounded to the double nearest to it; zero, which has no
first bit, is the pattern without any. -/
theorem nearest_ofBits (finite : ofFraction n.natAbs 1 ≠ infinityPattern) :
    Nearest |(n : ℚ)| (Float.ofBits (UInt64.ofNat (ofFraction n.natAbs 1))) := by
  rcases eq_or_ne n 0 with rfl | nonzero
  · have zero : rational (Float.ofBits (UInt64.ofNat (ofFraction (0 : ℤ).natAbs 1))) = 0 := by
      change ((0 : ℕ) : ℚ) * _ = 0
      rw [Nat.cast_zero, zero_mul]
    rw [Int.cast_zero, abs_zero]
    refine ⟨rfl, fun y _ => ?_, fun y _ _ _ => rfl⟩
    rw [zero, sub_zero, abs_zero]
    exact abs_nonneg _
  · have pos := Int.natAbs_pos.mpr nonzero
    have small : ofFraction n.natAbs 1 < infinityPattern := by
      obtain ⟨exponent, r, -, rounded⟩ := exists_rounds pos one_pos
      exact lt_of_le_of_ne (rounded ▸ min_le_left _ _) finite
    have bits := toNat_toBits_ofBits small
    have below : ofFraction n.natAbs 1 < 2 ^ 63 := small.trans (by decide)
    have nearest := fun m canonical => ofFraction_nearest pos one_pos small (m := m) canonical
    rw [natAbs_div_one] at nearest
    refine nearest_of_magnitude (abs_pos.mpr (by exact_mod_cast nonzero)) ?_ ?_ ?_
    · rw [isFinite_iff, bits]
      exact (Nat.mod_le _ _).trans_lt small
    · rw [bits]
      exact decide_eq_false (Nat.not_le.mpr below)
    · rwa [bits]

/-- An integer that is loaded as a number becomes the double nearest to it.  It is rounded without
its sign, and what is too large for a double is refused and not loaded. -/
theorem nearest_of_doubleOfInt (loaded : doubleOfInt n = .ok x) : Nearest n x := by
  unfold doubleOfInt at loaded
  dsimp only at loaded
  split at loaded
  · exact nomatch loaded
  · next finite =>
    have nearest := nearest_ofBits finite
    cases loaded
    split
    · next negative =>
      have mirrored := nearest.neg
      rwa [abs_of_neg (Int.cast_lt_zero.mpr negative), neg_neg] at mirrored
    · next nonneg =>
      rwa [abs_of_nonneg (by exact_mod_cast not_lt.mp nonneg)] at nearest

end Tree
end Arbor
