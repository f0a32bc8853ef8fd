import Arbor.Number.Decimal
import Mathlib.Algebra.Order.Field.Power
import Mathlib.Data.Rat.Cast.Order
import Mathlib.Tactic.FieldSimp
import Mathlib.Tactic.Linarith
import Mathlib.Tactic.NormNum
import Mathlib.Tactic.Positivity
import Mathlib.Tactic.Ring

/-!
# Rounding to doubles

Magnitudes and decimals stand for rationals, and a fraction is rounded as the rational that it
stands for: the exponent of the last bit that is kept is fixed by the rational alone, and so is the
significand.  A rational that differs from a double by no more than one part in `2 · 10 ^ 16` is
rounded to that double, on both sides of a power of two.

## Main definitions

* `Binary64.Magnitude.value`, `Decimal.value`: the rationals.
* `Binary64.Keeps`: the exponent of the last bit kept.

## Main statements

* `Binary64.ofFraction_congr`: equal fractions are rounded alike.
* `Binary64.ofFraction_eq_of_near`: what is rounded to a given double.
-/

namespace Arbor

/-- A power with an integer exponent, as the fraction of naturals that the exponent's parts give. -/
theorem pow_toNat_div_pow_toNat {base : ℕ} (pos : 0 < base) (exponent : ℤ) :
    ((Nat.pow base exponent.toNat : ℕ) : ℚ) / (Nat.pow base (-exponent).toNat : ℕ) =
      (base : ℚ) ^ exponent := by
  have nonzero : (base : ℚ) ≠ 0 := by positivity
  rcases le_total 0 exponent with up | down
  · obtain ⟨n, rfl⟩ := Int.eq_ofNat_of_zero_le up
    simp
  · obtain ⟨n, rfl⟩ := Int.exists_eq_neg_ofNat down
    simp

namespace Binary64

/-! ### Magnitudes as rationals -/

namespace Magnitude

/-- The rational that a magnitude stands for. -/
def value (m : Magnitude) : ℚ :=
  m.significand * 2 ^ m.exponent

theorem numerator_div_denominator (m : Magnitude) :
    (m.numerator : ℚ) / m.denominator = m.value := by
  unfold numerator denominator value
  rw [Nat.cast_mul, mul_div_assoc, pow_toNat_div_pow_toNat (by decide)]
  rfl

/-- A magnitude in the form that a pattern codes: 53 bits, and no fewer unless the exponent is the
least. -/
structure Canonical (m : Magnitude) : Prop where
  least : leastExponent ≤ m.exponent
  below : m.significand < 2 ^ 53
  above : m.exponent = leastExponent ∨ 2 ^ 52 ≤ m.significand

end Magnitude

variable {pattern num den num' den' : ℕ} {v : ℚ} {exponent exponent' : ℤ}

/-- What a pattern codes has 53 bits, or the least exponent: the leading bit is only left out where
the exponent field is not zero. -/
theorem canonical_magnitude (pattern : ℕ) : (magnitude pattern).Canonical := by
  have unit : fieldUnit = 2 ^ 52 := rfl
  have fraction : unsigned pattern % fieldUnit < 2 ^ 52 := Nat.mod_lt _ (by decide)
  unfold magnitude
  dsimp only
  split
  · exact ⟨le_refl _, by simp only; omega, .inl rfl⟩
  · have field : 0 < unsigned pattern / fieldUnit := Nat.pos_of_ne_zero (by assumption)
    refine ⟨?_, ?_, .inr ?_⟩
    · change leastExponent ≤ ((unsigned pattern / fieldUnit : ℕ) : ℤ) - 1 + leastExponent
      omega
    · change fieldUnit + unsigned pattern % fieldUnit < 2 ^ 53
      omega
    · change 2 ^ 52 ≤ fieldUnit + unsigned pattern % fieldUnit
      omega

/-- A pattern is its exponent field, counted without the leading bit, and its significand.  So
patterns are in the order of the numbers they code, and the next pattern is the next number. -/
theorem eq_of_magnitude (small : pattern < infinityPattern) :
    pattern = ((magnitude pattern).exponent - leastExponent).toNat * fieldUnit +
      (magnitude pattern).significand := by
  have unsigned_eq : unsigned pattern = pattern :=
    Nat.mod_eq_of_lt (lt_trans small (by decide))
  have divided := Nat.div_add_mod' pattern fieldUnit
  unfold magnitude
  rw [unsigned_eq]
  dsimp only
  split <;> rename_i field
  · rw [field] at divided
    simp only [sub_self, Int.toNat_zero]
    omega
  · obtain ⟨k, positive⟩ := Nat.exists_eq_succ_of_ne_zero field
    rw [positive] at divided ⊢
    have count : (((k.succ : ℕ) : ℤ) - 1 + leastExponent - leastExponent).toNat = k := by omega
    rw [Nat.succ_mul] at divided
    simp only [count]
    omega

/-- A pattern that is not zero codes a positive number.  In the least binade the significand is the
pattern itself, and in the others it has its leading bit. -/
theorem value_magnitude_pos (pos : 0 < pattern) (small : pattern < infinityPattern) :
    0 < (magnitude pattern).value := by
  have eq := eq_of_magnitude small
  have canonical := canonical_magnitude pattern
  have significand : 0 < (magnitude pattern).significand := by
    rcases canonical.above with least | above
    · rw [least] at eq
      simp only [sub_self, Int.toNat_zero] at eq
      omega
    · exact lt_of_lt_of_le (by decide) above
  unfold Magnitude.value
  positivity

/-! ### The last bit that is kept -/

/-- The last bit that a double near a rational keeps has a given exponent: the rational has 53 bits
above it, and no fewer unless the exponent is the least. -/
structure Keeps (v : ℚ) (exponent : ℤ) : Prop where
  least : leastExponent ≤ exponent
  below : v < 2 ^ (exponent + 53)
  above : exponent = leastExponent ∨ 2 ^ (exponent + 52) ≤ v

/-- Of two exponents that can be kept neither is smaller: the number would need more bits above it
than there are. -/
theorem Keeps.le (one : Keeps v exponent) (two : Keeps v exponent') : exponent ≤ exponent' := by
  by_contra less
  rcases one.above with least | above
  · have := two.least
    omega
  · have order : (2 : ℚ) ^ (exponent' + 53) ≤ 2 ^ (exponent + 52) :=
      zpow_le_zpow_right₀ (by norm_num) (by omega)
    have below := two.below
    linarith

/-- The rational alone fixes the exponent. -/
theorem Keeps.unique (one : Keeps v exponent) (two : Keeps v exponent') : exponent = exponent' :=
  le_antisymm (one.le two) (two.le one)

/-- A fraction lies between the powers that the lengths of its parts give.  They are two powers
apart, and so leave two exponents to choose from. -/
theorem fraction_bounds (num_pos : 0 < num) (den_pos : 0 < den) :
    (2 : ℚ) ^ ((num.log2 : ℤ) - den.log2 - 1) ≤ num / den ∧
      (num / den : ℚ) < 2 ^ ((num.log2 : ℤ) - den.log2 + 1) := by
  have den_pos' : (0 : ℚ) < den := by exact_mod_cast den_pos
  have num_least : ((2 ^ num.log2 : ℕ) : ℚ) ≤ num := by
    exact_mod_cast Nat.log2_self_le num_pos.ne'
  have num_most : (num : ℚ) < (2 ^ (num.log2 + 1) : ℕ) := by exact_mod_cast Nat.lt_log2_self
  have den_least : ((2 ^ den.log2 : ℕ) : ℚ) ≤ den := by
    exact_mod_cast Nat.log2_self_le den_pos.ne'
  have den_most : (den : ℚ) < (2 ^ (den.log2 + 1) : ℕ) := by exact_mod_cast Nat.lt_log2_self
  push_cast at num_least num_most den_least den_most
  have two : (2 : ℚ) ≠ 0 := by norm_num
  constructor
  · rw [le_div_iff₀ den_pos']
    calc (2 : ℚ) ^ ((num.log2 : ℤ) - den.log2 - 1) * den
        ≤ 2 ^ ((num.log2 : ℤ) - den.log2 - 1) * 2 ^ (den.log2 + 1) := by gcongr
      _ = 2 ^ num.log2 := by
        rw [← zpow_natCast, ← zpow_natCast, ← zpow_add₀ two]
        congr 1
        push_cast
        ring
      _ ≤ num := num_least
  · rw [div_lt_iff₀ den_pos']
    calc (num : ℚ) < 2 ^ (num.log2 + 1) := num_most
      _ = 2 ^ ((num.log2 : ℤ) - den.log2 + 1) * 2 ^ den.log2 := by
        rw [← zpow_natCast, ← zpow_natCast, ← zpow_add₀ two]
        congr 1
        push_cast
        ring
      _ ≤ 2 ^ ((num.log2 : ℤ) - den.log2 + 1) * den := by gcongr

theorem scale_snd_pos (num : ℕ) (den_pos : 0 < den) (exponent : ℤ) :
    0 < (scale num den exponent).2 :=
  Nat.mul_pos den_pos (Nat.pow_pos (by decide))

/-- The fraction in units of a power of two, as the quotient of two naturals.  A power with a
negative exponent goes to the other side of the fraction. -/
theorem scale_div (num den : ℕ) (exponent : ℤ) :
    ((scale num den exponent).1 : ℚ) / (scale num den exponent).2 =
      num / den * 2 ^ (-exponent) := by
  have power := @pow_toNat_div_pow_toNat 2 (by decide) (-exponent)
  rw [neg_neg] at power
  unfold scale
  rw [Nat.cast_mul, Nat.cast_mul, mul_div_mul_comm, power]
  rfl

/-- A quotient is below a natural exactly if it is when it is rounded down. -/
theorem div_lt_iff_cast (den_pos : 0 < den) (bound : ℕ) :
    num / den < bound ↔ (num / den : ℚ) < bound := by
  have den_pos' : (0 : ℚ) < den := by exact_mod_cast den_pos
  rw [Nat.div_lt_iff_lt_mul den_pos, div_lt_iff₀ den_pos']
  exact_mod_cast Iff.rfl

/-- The exponent that is computed is the one that can be kept.  It is guessed from the lengths of
the parts, and raised by one if the quotient turns out a bit too long. -/
theorem keeps_lastExponent (num_pos : 0 < num) (den_pos : 0 < den) :
    Keeps (num / den) (lastExponent num den) := by
  have two : (2 : ℚ) ≠ 0 := by norm_num
  obtain ⟨lower, upper⟩ := fraction_bounds num_pos den_pos
  have coarse_eq : coarseExponent num den =
      max leastExponent ((num.log2 : ℤ) - den.log2 - 53) := rfl
  unfold lastExponent
  generalize coarseExponent num den = coarse at coarse_eq
  dsimp only
  -- the quotient in units of the coarse exponent has at most 54 bits
  have bits : (scale num den coarse).1 / (scale num den coarse).2 < 2 * fieldUnit ↔
      (num / den : ℚ) < 2 ^ (coarse + 53) := by
    rw [div_lt_iff_cast (scale_snd_pos num den_pos coarse), scale_div, zpow_neg,
      ← div_eq_mul_inv, div_lt_iff₀ (by positivity), zpow_add₀ two, mul_comm]
    have unit : ((2 * fieldUnit : ℕ) : ℚ) = 2 ^ (53 : ℤ) := by norm_num [fieldUnit]
    rw [unit]
  simp only [bits]
  split <;> rename_i short
  · refine ⟨by omega, short, ?_⟩
    rcases le_or_gt ((num.log2 : ℤ) - den.log2 - 53) leastExponent with small | large
    · exact .inl (by omega)
    · refine .inr (le_trans (zpow_le_zpow_right₀ (by norm_num) ?_) lower)
      omega
  · refine ⟨by omega, lt_of_lt_of_le upper (zpow_le_zpow_right₀ (by norm_num) (by omega)), .inr ?_⟩
    have same : coarse + 1 + 52 = coarse + 53 := by ring
    rw [same]
    exact not_lt.mp short

/-! ### Rounding a quotient -/

/-- Rounding a quotient does not depend on how it is written as a fraction.  A common factor changes
neither the whole part nor on which side of one half the rest lies. -/
theorem roundHalfEven_mul_left {factor : ℕ} (pos : 0 < factor) (num den : ℕ) :
    roundHalfEven (factor * num) (factor * den) = roundHalfEven num den := by
  unfold roundHalfEven
  rw [Nat.mul_div_mul_left num den pos, Nat.mul_mod_mul_left]
  have less : factor * den < 2 * (factor * (num % den)) ↔ den < 2 * (num % den) := by
    rw [Nat.mul_left_comm]
    exact Nat.mul_lt_mul_left pos
  have same : factor * den = 2 * (factor * (num % den)) ↔ den = 2 * (num % den) := by
    rw [Nat.mul_left_comm]
    exact Nat.mul_right_inj pos.ne'
  simp only [less, same]

/-- Fractions of one value are rounded alike, by bringing both to one denominator. -/
theorem roundHalfEven_congr (den_pos : 0 < den) (den_pos' : 0 < den')
    (same : (num / den : ℚ) = num' / den') : roundHalfEven num den = roundHalfEven num' den' := by
  have crossed : den' * num = den * num' := by
    have nonzero : (den : ℚ) ≠ 0 := by positivity
    have nonzero' : (den' : ℚ) ≠ 0 := by positivity
    rw [div_eq_div_iff nonzero nonzero'] at same
    have whole : num * den' = num' * den := by exact_mod_cast same
    rw [Nat.mul_comm, whole, Nat.mul_comm]
  rw [← roundHalfEven_mul_left den_pos', crossed, Nat.mul_comm den' den,
    roundHalfEven_mul_left den_pos]

/-- A quotient is rounded to the natural that is less than a half away.  It is rounded down or up to
it, by whether it lies above or below, and the two other cases contradict the distance. -/
theorem roundHalfEven_eq_of_near {k : ℕ} (den_pos : 0 < den)
    (near : |(num / den : ℚ) - k| < 1 / 2) : roundHalfEven num den = k := by
  have den_pos' : (0 : ℚ) < den := by exact_mod_cast den_pos
  obtain ⟨lower, upper⟩ := abs_lt.mp near
  have lower : 2 * (k * den) < 2 * num + den := by
    have less : (k : ℚ) - 1 / 2 < num / den := by linarith
    rw [lt_div_iff₀ den_pos'] at less
    have : (2 * (k * den) : ℚ) < 2 * num + den := by linarith
    exact_mod_cast this
  have upper : 2 * num < 2 * (k * den) + den := by
    have less : (num / den : ℚ) < k + 1 / 2 := by linarith
    rw [div_lt_iff₀ den_pos'] at less
    have : (2 * num : ℚ) < 2 * (k * den) + den := by linarith
    exact_mod_cast this
  have divided := Nat.div_add_mod' num den
  have rest := Nat.mod_lt num den_pos
  unfold roundHalfEven
  dsimp only
  rcases Nat.lt_trichotomy (num / den) k with less | same | more
  · -- rounded down it is one less, and more than a half is left over
    have next : num / den + 1 = k := by
      by_contra other
      have : (num / den + 2) * den ≤ k * den := Nat.mul_le_mul_right den (by omega)
      rw [Nat.add_mul] at this
      omega
    rw [← next, Nat.add_mul] at lower
    rw [if_pos (.inl (by omega)), next]
  · rw [← same] at upper
    rw [if_neg (by omega), same]
  · have : (k + 1) * den ≤ num / den * den := Nat.mul_le_mul_right den more
    rw [Nat.add_mul] at this
    omega

/-! ### Rounding a fraction to a double -/

/-- Equal fractions are rounded to the same double, since the exponent is fixed by the rational, and
so is the quotient in units of it. -/
theorem ofFraction_congr (den_pos : 0 < den) (den_pos' : 0 < den')
    (same : (num / den : ℚ) = num' / den') : ofFraction num den = ofFraction num' den' := by
  rcases Nat.eq_zero_or_pos num with rfl | num_pos
  · have zero : (num' / den' : ℚ) = 0 := by rw [← same, Nat.cast_zero, zero_div]
    have nonzero : (den' : ℚ) ≠ 0 := by positivity
    have none : num' = 0 := by exact_mod_cast (div_eq_zero_iff.mp zero).resolve_right nonzero
    rw [none, ofFraction, ofFraction, if_pos rfl, if_pos rfl]
  · have positive : (0 : ℚ) < num' / den' := by
      rw [← same]
      positivity
    have num_pos' : 0 < num' := by
      by_contra none
      rw [Nat.eq_zero_of_not_pos none, Nat.cast_zero, zero_div] at positive
      exact lt_irrefl _ positive
    have kept := keeps_lastExponent num_pos den_pos
    rw [same] at kept
    have exponents := kept.unique (keeps_lastExponent num_pos' den_pos')
    have rounded := roundHalfEven_congr (scale_snd_pos num den_pos (lastExponent num' den'))
      (scale_snd_pos num' den_pos' (lastExponent num' den'))
      (by rw [scale_div, scale_div, same])
    unfold ofFraction
    rw [if_neg num_pos.ne', if_neg num_pos'.ne', exponents]
    dsimp only
    rw [rounded]

/-- A fraction that is counted in units of the last bit kept, less than half a unit away from `k`,
is rounded to `k` units.  The exponent need not be that of the double: `k` may be the next power of
two. -/
theorem ofFraction_eq_of_units {w : ℚ} {k : ℕ} (num_pos : 0 < num) (den_pos : 0 < den)
    (counted : (num / den : ℚ) = w * 2 ^ exponent) (least : leastExponent ≤ exponent)
    (below : w < 2 ^ 53) (above : exponent = leastExponent ∨ 2 ^ 52 ≤ w)
    (near : |w - k| < 1 / 2) :
    ofFraction num den =
      min infinityPattern ((exponent - leastExponent).toNat * fieldUnit + k) := by
  have two : (2 : ℚ) ≠ 0 := by norm_num
  have unit_pos : (0 : ℚ) < 2 ^ exponent := by positivity
  have keeps : Keeps (num / den) exponent := by
    refine ⟨least, ?_, above.imp_right fun above => ?_⟩
    · rw [counted, zpow_add₀ two, mul_comm]
      exact mul_lt_mul_of_pos_left (by exact_mod_cast below) unit_pos
    · rw [counted, zpow_add₀ two, mul_comm]
      exact mul_le_mul_of_nonneg_right (by exact_mod_cast above) unit_pos.le
  have same := (keeps_lastExponent num_pos den_pos).unique keeps
  have quotient : (num / den : ℚ) * 2 ^ (-exponent) = w := by
    rw [counted, mul_assoc, ← zpow_add₀ two, add_neg_cancel, zpow_zero, mul_one]
  have rounded : roundHalfEven (scale num den exponent).1 (scale num den exponent).2 = k :=
    roundHalfEven_eq_of_near (scale_snd_pos num den_pos exponent) (by rwa [scale_div, quotient])
  unfold ofFraction
  rw [if_neg num_pos.ne', same]
  dsimp only
  rw [rounded]

/-- A fraction that differs from a double by at most one part in `2 · 10 ^ 16` is rounded to it.
Where the double is a power of two, a fraction just below it is counted in units half as large, and
is still less than half of one away. -/
theorem ofFraction_eq_of_near (den_pos : 0 < den) (pos : 0 < pattern)
    (small : pattern < infinityPattern)
    (near : |(num / den : ℚ) - (magnitude pattern).value| * (2 * 10 ^ 16) ≤
      (magnitude pattern).value) :
    ofFraction num den = pattern := by
  have value_pos := value_magnitude_pos pos small
  have coded := eq_of_magnitude small
  obtain ⟨least, below, above⟩ := canonical_magnitude pattern
  have value_eq : (magnitude pattern).value =
    (magnitude pattern).significand * 2 ^ (magnitude pattern).exponent := rfl
  generalize (magnitude pattern).value = x at *
  generalize (magnitude pattern).significand = s at *
  generalize (magnitude pattern).exponent = e at *
  have unit_pos : (0 : ℚ) < 2 ^ e := by positivity
  have num_pos : 0 < num := by
    by_contra none
    rw [Nat.eq_zero_of_not_pos none, Nat.cast_zero, zero_div, zero_sub, abs_neg,
      abs_of_pos value_pos] at near
    linarith
  -- everything in units of the last bit of the double
  obtain ⟨w, counted⟩ : ∃ w : ℚ, (num / den : ℚ) = w * 2 ^ e :=
    ⟨num / den * (2 ^ e)⁻¹, by rw [mul_assoc, inv_mul_cancel₀ unit_pos.ne', mul_one]⟩
  have near : |w - s| * (2 * 10 ^ 16) ≤ s := by
    rw [counted, value_eq, ← sub_mul, abs_mul, abs_of_pos unit_pos, mul_right_comm] at near
    exact le_of_mul_le_mul_right near unit_pos
  have below' : (s : ℚ) + 1 ≤ 2 ^ 53 := by exact_mod_cast below
  have half : |w - s| < 1 / 2 := by linarith
  obtain ⟨lower, upper⟩ := abs_lt.mp half
  by_cases full : e = leastExponent ∨ 2 ^ 52 ≤ w
  · rw [ofFraction_eq_of_units num_pos den_pos counted least (by linarith) full half, ← coded]
    exact min_eq_right small.le
  · -- just below a power of two, where the last bit is half as large
    rw [not_or, not_le] at full
    obtain ⟨above_least, less⟩ := full
    have power : s = 2 ^ 52 := by
      have atLeast := above.resolve_left above_least
      have atMost : (s : ℚ) < 2 ^ 52 + 1 := by linarith
      have atMost : s < 2 ^ 52 + 1 := by exact_mod_cast atMost
      omega
    have power' : (s : ℚ) = 2 ^ 52 := by exact_mod_cast power
    have quarter : |w - s| < 1 / 4 := by linarith
    obtain ⟨lower, -⟩ := abs_lt.mp quarter
    have counted : (num / den : ℚ) = 2 * w * 2 ^ (e - 1) := by
      rw [counted, zpow_sub_one₀ (by norm_num)]
      ring
    have close : |2 * w - (2 ^ 53 : ℕ)| < 1 / 2 := by
      rw [abs_lt]
      push_cast
      constructor <;> linarith
    rw [ofFraction_eq_of_units num_pos den_pos counted (by omega) (by linarith)
      (.inr (by linarith)) close]
    have unit : fieldUnit = 2 ^ 52 := rfl
    have field : (e - leastExponent).toNat = (e - 1 - leastExponent).toNat + 1 := by omega
    rw [field, power, Nat.add_mul, unit] at coded
    have carried : (e - 1 - leastExponent).toNat * fieldUnit + 2 ^ 53 = pattern := by
      rw [unit]
      omega
    rw [carried]
    exact min_eq_right small.le

end Binary64
end Arbor
