import Arbor.Proofs.Number.Rounding
import Mathlib.Data.Int.Log
import Mathlib.Data.Rat.Floor

/-!
# Decimals that read back

A decimal is read by the rational that it stands for.  Among the decimals of seventeen digits one is
close enough to a given double to be rounded to it, so the search for the shortest decimal that
reads back always finds one, and what is found has no trailing zeros and at most seventeen digits.

## Main statements

* `Decimal.log_value`: the exponent of the leading digit is the decimal logarithm.
* `Decimal.toPattern_congr`: reading depends on the rational alone.
* `Decimal.shortest_spec`: the shortest decimal of a double reads back as the double.
-/

namespace Arbor

/-- The powers on both sides of a rational fix its logarithm. -/
theorem log_eq_of_bounds {q : ℚ} {k : ℤ} (least : 10 ^ k ≤ q) (most : q < 10 ^ (k + 1)) :
    Int.log 10 q = k := by
  have pos : 0 < q := lt_of_lt_of_le (by positivity) least
  have lower := (Int.zpow_le_iff_le_log (b := 10) (by norm_num) pos).mp (by exact_mod_cast least)
  have upper := (Int.lt_zpow_iff_log_lt (b := 10) (by norm_num) pos).mp (by exact_mod_cast most)
  omega

/-- The converse. -/
theorem bounds_of_pos {q : ℚ} (pos : 0 < q) :
    (10 : ℚ) ^ Int.log 10 q ≤ q ∧ q < 10 ^ (Int.log 10 q + 1) := by
  constructor
  · exact_mod_cast (Int.zpow_le_iff_le_log (b := 10) (by norm_num) pos).mpr le_rfl
  · exact_mod_cast (Int.lt_zpow_iff_log_lt (b := 10) (by norm_num) pos).mpr (lt_add_one _)

namespace Binary64

variable {pattern : ℕ}

/-- Eight is less than ten.  This bounds the decimal exponents that doubles can have. -/
theorem two_pow_le_ten_pow (n : ℕ) : (2 : ℚ) ^ ((3 * n : ℕ) : ℤ) ≤ 10 ^ (n : ℤ) := by
  rw [zpow_natCast, zpow_natCast, pow_mul]
  exact pow_le_pow_left₀ (by norm_num) (by norm_num) n

/-- The finite doubles have fewer than 360 digits on either side of the point.  This is far from the
true bounds, and close enough for the cut-off of exponents that are out of range. -/
theorem value_magnitude_bounds (pos : 0 < pattern) (small : pattern < infinityPattern) :
    (10 : ℚ) ^ (-360 : ℤ) ≤ (magnitude pattern).value ∧
      (magnitude pattern).value < 10 ^ (360 : ℤ) := by
  have value_pos := value_magnitude_pos pos small
  have coded := eq_of_magnitude small
  obtain ⟨least, below, above⟩ := canonical_magnitude pattern
  unfold Magnitude.value at *
  generalize (magnitude pattern).significand = s at *
  generalize (magnitude pattern).exponent = e at *
  have significand : (1 : ℚ) ≤ s := by
    by_contra none
    have zero : s = 0 := by
      have : s < 1 := by exact_mod_cast not_le.mp none
      omega
    simp [zero] at value_pos
  constructor
  · calc (10 : ℚ) ^ (-360 : ℤ) ≤ (2 : ℚ) ^ (-1080 : ℤ) := by
          rw [zpow_neg, zpow_neg]
          exact inv_anti₀ (by positivity) (two_pow_le_ten_pow 360)
      _ ≤ 2 ^ e := zpow_le_zpow_right₀ (by norm_num) (by unfold leastExponent at least; omega)
      _ ≤ s * 2 ^ e := le_mul_of_one_le_left (by positivity) significand
  · have most : e ≤ 1000 := by
      by_contra more
      have field : 2047 ≤ (e - leastExponent).toNat := by
        unfold leastExponent
        omega
      have large : infinityPattern ≤ (e - leastExponent).toNat * fieldUnit :=
        Nat.mul_le_mul_right fieldUnit field
      omega
    have below : (s : ℚ) < 2 ^ (53 : ℤ) := by exact_mod_cast below
    calc (s : ℚ) * 2 ^ e < 2 ^ (53 : ℤ) * 2 ^ e := by gcongr
      _ = 2 ^ (53 + e) := (zpow_add₀ (by norm_num) _ _).symm
      _ ≤ 2 ^ ((3 * 360 : ℕ) : ℤ) := zpow_le_zpow_right₀ (by norm_num) (by omega)
      _ ≤ 10 ^ (360 : ℤ) := two_pow_le_ten_pow 360

end Binary64

namespace Decimal

/-! ### Decimals as rationals -/

/-- The rational that a decimal stands for. -/
def value (d : Decimal) : ℚ :=
  d.coefficient * 10 ^ d.exponent

variable {d d' : Decimal} {pattern num den : ℕ} {exponent order : ℤ}

theorem denominator_pos (d : Decimal) : 0 < d.denominator :=
  Nat.pow_pos (by decide)

/-- The fraction by which a decimal is read is the rational that it stands for. -/
theorem numerator_div_denominator (d : Decimal) : (d.numerator : ℚ) / d.denominator = d.value := by
  unfold numerator denominator value
  rw [Nat.cast_mul, mul_div_assoc, pow_toNat_div_pow_toNat (by decide)]
  rfl

/-- A decimal is zero if its coefficient is. -/
theorem coefficient_eq_zero_iff : d.coefficient = 0 ↔ d.value = 0 := by
  have power : (10 : ℚ) ^ d.exponent ≠ 0 := by positivity
  simp [value, power]

/-- A natural is below the power of ten that its digits count up to. -/
theorem lt_pow_digitCount (n : ℕ) : n < 10 ^ digitCount n :=
  (Nat.length_toDigits_le_iff (by decide) Nat.length_toDigits_pos).mp le_rfl

/-- It reaches the power below, unless it is zero.  Otherwise a digit fewer would do. -/
theorem pow_pred_digitCount_le {n : ℕ} (pos : 0 < n) : 10 ^ (digitCount n - 1) ≤ n := by
  by_contra less
  rcases Nat.eq_zero_or_pos (digitCount n - 1) with zero | more
  · rw [zero] at less
    omega
  · have fewer := (Nat.length_toDigits_le_iff (by decide) more).mpr (not_le.mp less)
    unfold digitCount at fewer more
    omega

/-- The exponent of the leading digit is the decimal logarithm.  The coefficient lies between two
powers of ten, by the number of its digits, and the exponent shifts both. -/
theorem log_value (pos : 0 < d.coefficient) : Int.log 10 d.value = d.leadingExponent := by
  have ten : (10 : ℚ) ≠ 0 := by norm_num
  have count : 0 < digitCount d.coefficient := Nat.length_toDigits_pos
  have least : ((10 ^ (digitCount d.coefficient - 1) : ℕ) : ℚ) ≤ d.coefficient := by
    exact_mod_cast pow_pred_digitCount_le pos
  have most : (d.coefficient : ℚ) < (10 ^ digitCount d.coefficient : ℕ) := by
    exact_mod_cast lt_pow_digitCount d.coefficient
  push_cast at least most
  rw [← zpow_natCast] at least most
  refine log_eq_of_bounds ?_ ?_
  · have exponents : d.leadingExponent =
        ((digitCount d.coefficient - 1 : ℕ) : ℤ) + d.exponent := by
      unfold leadingExponent
      omega
    rw [exponents, zpow_add₀ ten]
    exact mul_le_mul_of_nonneg_right least (by positivity)
  · have exponents : d.leadingExponent + 1 = (digitCount d.coefficient : ℤ) + d.exponent := by
      unfold leadingExponent
      omega
    rw [exponents, zpow_add₀ ten]
    exact mul_lt_mul_of_pos_right most (by positivity)

/-- Reading a decimal depends on the rational alone.  So do the two shortcuts, which look at the
coefficient being zero and at the leading exponent. -/
theorem toPattern_congr (same : d.value = d'.value) : d.toPattern = d'.toPattern := by
  have zeros : d.coefficient = 0 ↔ d'.coefficient = 0 := by
    rw [coefficient_eq_zero_iff, coefficient_eq_zero_iff, same]
  rcases Nat.eq_zero_or_pos d.coefficient with zero | pos
  · unfold toPattern
    rw [if_pos (.inl zero), if_pos (.inl (zeros.mp zero))]
  · have pos' : 0 < d'.coefficient := Nat.pos_of_ne_zero fun zero => pos.ne' (zeros.mpr zero)
    have leading : d.leadingExponent = d'.leadingExponent := by
      rw [← log_value pos, ← log_value pos', same]
    have rounded : Binary64.ofFraction d.numerator d.denominator =
        Binary64.ofFraction d'.numerator d'.denominator := by
      refine Binary64.ofFraction_congr d.denominator_pos d'.denominator_pos ?_
      rw [numerator_div_denominator, numerator_div_denominator, same]
    unfold toPattern
    simp only [zeros, leading, rounded]

/-- A decimal that is close to a double is read as the double.  Close is a part in twice ten to
the sixteenth, which is less than half the distance to the next double; and neither shortcut is
taken. -/
theorem toPattern_eq_of_near (pos : 0 < pattern) (small : pattern < Binary64.infinityPattern)
    (near : |d.value - (Binary64.magnitude pattern).value| * (2 * 10 ^ 16) ≤
      (Binary64.magnitude pattern).value) : d.toPattern = pattern := by
  obtain ⟨least, most⟩ := Binary64.value_magnitude_bounds pos small
  have value_pos := Binary64.value_magnitude_pos pos small
  have rounded : Binary64.ofFraction d.numerator d.denominator = pattern := by
    refine Binary64.ofFraction_eq_of_near d.denominator_pos pos small ?_
    rwa [numerator_div_denominator]
  generalize (Binary64.magnitude pattern).value = x at *
  obtain ⟨lower, upper⟩ := abs_le.mp (show |d.value - x| ≤ x / 2 by linarith)
  have positive : 0 < d.value := by linarith
  have nonzero : d.coefficient ≠ 0 := by
    rw [Ne, coefficient_eq_zero_iff]
    exact positive.ne'
  have leading := log_value (Nat.pos_of_ne_zero nonzero)
  have notSmall : -361 ≤ d.leadingExponent := by
    rw [← leading]
    refine (Int.zpow_le_iff_le_log (b := 10) (by norm_num) positive).mp ?_
    calc ((10 : ℕ) : ℚ) ^ (-360 - 1 : ℤ) = 10 ^ (-360 : ℤ) * 10⁻¹ := zpow_sub_one₀ (by norm_num) _
      _ ≤ x * 10⁻¹ := by gcongr
      _ ≤ d.value := by linarith only [lower, value_pos]
  have notLarge : d.leadingExponent < 361 := by
    rw [← leading]
    refine (Int.lt_zpow_iff_log_lt (b := 10) (by norm_num) positive).mp ?_
    calc d.value ≤ x * 10 := by linarith only [upper, value_pos]
      _ < 10 ^ (360 : ℤ) * 10 := by gcongr
      _ = ((10 : ℕ) : ℚ) ^ (360 + 1 : ℤ) := (zpow_add_one₀ (by norm_num) _).symm
  have bound : exponentBound = 400 := rfl
  unfold toPattern
  rw [if_neg (by omega), if_neg (by omega), rounded]

/-! ### Trailing zeros -/

/-- A decimal without trailing zeros. -/
structure Trim (d : Decimal) : Prop where
  pos : 0 < d.coefficient
  last : d.coefficient % 10 ≠ 0

/-- Dropping trailing zeros keeps the value, since the exponent makes up for them. -/
theorem value_trimZeros (fuel : ℕ) (d : Decimal) : (trimZeros fuel d).value = d.value := by
  induction fuel generalizing d with
  | zero => rfl
  | succ fuel ih =>
    unfold trimZeros
    split
    · rename_i zero
      have whole : d.coefficient = d.coefficient / 10 * 10 := by omega
      have ten : (10 : ℚ) ≠ 0 := by norm_num
      rw [ih, value, value, zpow_add_one₀ ten]
      nth_rewrite 2 [whole]
      push_cast
      ring
    · rfl

/-- The coefficient does not grow when zeros are dropped, so the number of its digits does not
either. -/
theorem coefficient_trimZeros_le (fuel : ℕ) (d : Decimal) :
    (trimZeros fuel d).coefficient ≤ d.coefficient := by
  induction fuel generalizing d with
  | zero => rfl
  | succ fuel ih =>
    unfold trimZeros
    split
    · exact le_trans (ih _) (Nat.div_le_self _ _)
    · rfl

/-- With enough steps all trailing zeros are dropped; each step divides the coefficient by ten. -/
theorem trim_trimZeros (fuel : ℕ) (d : Decimal) (pos : 0 < d.coefficient)
    (enough : d.coefficient < 10 ^ fuel) : (trimZeros fuel d).Trim := by
  induction fuel generalizing d with
  | zero => omega
  | succ fuel ih =>
    rw [Nat.pow_succ] at enough
    unfold trimZeros
    split
    · refine ih _ ?_ ?_ <;> simp only <;> omega
    · exact ⟨pos, by omega⟩

/-- A decimal keeps its value when it is normalized. -/
theorem value_normalize (d : Decimal) : d.normalize.value = d.value :=
  value_trimZeros _ d

/-- A positive decimal has no trailing zeros then. -/
theorem trim_normalize (pos : 0 < d.coefficient) : d.normalize.Trim :=
  trim_trimZeros _ d pos (lt_pow_digitCount _)

/-- A decimal without trailing zeros whose coefficient is at most a power of ten has no more digits
than the numbers below that power. -/
theorem digitCount_le_of_trim {k : ℕ} (trim : d.Trim) (some : 0 < k)
    (bounded : d.coefficient ≤ 10 ^ k) : digitCount d.coefficient ≤ k := by
  refine (Nat.length_toDigits_le_iff (by decide) some).mpr (lt_of_le_of_ne bounded ?_)
  intro power
  obtain ⟨j, rfl⟩ := Nat.exists_eq_succ_of_ne_zero some.ne'
  rw [Nat.pow_succ] at power
  have last := trim.last
  omega

/-! ### The order of a fraction -/

/-- The test that counts leading zeros compares the fraction with a power of ten. -/
theorem le_mul_pow_iff (den_pos : 0 < den) (k : ℕ) :
    den ≤ num * Nat.pow 10 k ↔ (10 : ℚ) ^ (-(k : ℤ)) ≤ num / den := by
  have den_pos' : (0 : ℚ) < den := by exact_mod_cast den_pos
  rw [zpow_neg, zpow_natCast, inv_eq_one_div, div_le_div_iff₀ (by positivity) den_pos', one_mul]
  exact_mod_cast Iff.rfl

/-- The count of leading zeros is where the fraction lies between two powers of ten.  The induction
is on the steps left, with the upper bound as what has been found so far. -/
theorem leadingZeros_bounds (den_pos : 0 < den) (fuel k : ℕ)
    (before : (num / den : ℚ) < 10 ^ (-(k : ℤ) + 1))
    (later : (10 : ℚ) ^ (-((k + fuel : ℕ) : ℤ)) ≤ num / den) :
    (10 : ℚ) ^ (-(leadingZeros num den fuel k : ℤ)) ≤ num / den ∧
      (num / den : ℚ) < 10 ^ (-(leadingZeros num den fuel k : ℤ) + 1) := by
  induction fuel generalizing k with
  | zero => exact ⟨later, before⟩
  | succ fuel ih =>
    unfold leadingZeros
    split
    · rename_i found
      exact ⟨(le_mul_pow_iff den_pos k).mp found, before⟩
    · rename_i missed
      rw [le_mul_pow_iff den_pos, not_le] at missed
      refine ih (k + 1) ?_ ?_
      · have exponent : -((k + 1 : ℕ) : ℤ) + 1 = -(k : ℤ) := by omega
        rwa [exponent]
      · rwa [Nat.add_right_comm]

/-- The order of a fraction is its decimal logarithm.  From one on it counts the digits of the whole
part, and below that the zeros behind the point, of which there are fewer than the search allows. -/
theorem orderOf_eq (den_pos : 0 < den) (bounded : (10 : ℚ) ^ (-360 : ℤ) ≤ num / den) :
    orderOf num den = Int.log 10 (num / den : ℚ) := by
  have den_pos' : (0 : ℚ) < den := by exact_mod_cast den_pos
  unfold orderOf
  split <;> rename_i order
  · have quotient : 0 < num / den := Nat.div_pos order den_pos
    have count : 0 < digitCount (num / den) := Nat.length_toDigits_pos
    refine (log_eq_of_bounds ?_ ?_).symm
    · have least := pow_pred_digitCount_le quotient
      have exponent :
          (digitCount (num / den) : ℤ) - 1 = ((digitCount (num / den) - 1 : ℕ) : ℤ) := by
        omega
      rw [exponent, zpow_natCast, le_div_iff₀ den_pos']
      exact_mod_cast (Nat.le_div_iff_mul_le den_pos).mp least
    · have most := lt_pow_digitCount (num / den)
      rw [sub_add_cancel, zpow_natCast, div_lt_iff₀ den_pos']
      exact_mod_cast (Nat.div_lt_iff_lt_mul den_pos).mp most
  · have before : (num / den : ℚ) < 10 ^ (-((1 : ℕ) : ℤ) + 1) := by
      rw [Nat.cast_one, neg_add_cancel, zpow_zero, div_lt_one den_pos']
      exact_mod_cast not_le.mp order
    have later : (10 : ℚ) ^ (-((1 + 400 : ℕ) : ℤ)) ≤ num / den :=
      le_trans (zpow_le_zpow_right₀ (by norm_num) (by omega)) bounded
    obtain ⟨least, most⟩ := leadingZeros_bounds den_pos 400 1 before later
    exact (log_eq_of_bounds least most).symm

/-! ### Grids -/

/-- A fraction in units of a power of ten, as the fraction that a grid rounds. -/
theorem units_div (num den : ℕ) (exponent : ℤ) :
    ((num * Nat.pow 10 (-exponent).toNat : ℕ) : ℚ) / (den * Nat.pow 10 exponent.toNat : ℕ) =
      num / den * 10 ^ (-exponent) := by
  have power := @pow_toNat_div_pow_toNat 10 (by decide) (-exponent)
  rw [neg_neg] at power
  rw [Nat.cast_mul, Nat.cast_mul, mul_div_mul_comm, power]
  rfl

/-- The nearer neighbour of a fraction on a grid. -/
def nearer (num den : ℕ) (exponent : ℤ) : Decimal :=
  if prefersUpper num den (floorAt num den exponent) exponent then
    ⟨floorAt num den exponent + 1, exponent⟩
  else ⟨floorAt num den exponent, exponent⟩

/-- The nearer neighbour is at most half a unit away.  Which one is nearer is decided on integers,
by comparing twice the remainder with the denominator. -/
theorem value_nearer (num : ℕ) (den_pos : 0 < den) (exponent : ℤ) :
    |(nearer num den exponent).value - num / den| ≤ 10 ^ exponent / 2 := by
  have unit_pos : (0 : ℚ) < 10 ^ exponent := by positivity
  have units := units_div num den exponent
  have scaled_pos : 0 < den * Nat.pow 10 exponent.toNat :=
    Nat.mul_pos den_pos (Nat.pow_pos (by decide))
  have counted : (num / den : ℚ) = num / den * 10 ^ (-exponent) * 10 ^ exponent := by
    rw [mul_assoc, ← zpow_add₀ (by norm_num), neg_add_cancel, zpow_zero, mul_one]
  rw [← units] at counted
  unfold nearer floorAt prefersUpper
  dsimp only
  generalize num * Nat.pow 10 (-exponent).toNat = n at *
  generalize den * Nat.pow 10 exponent.toNat = m at *
  have scaled_pos' : (0 : ℚ) < m := by exact_mod_cast scaled_pos
  have divided := Nat.div_add_mod' n m
  have rest := Nat.mod_lt n scaled_pos
  -- it is enough to bound the distance of the coefficients
  have distance : ∀ c : ℕ, 2 * n ≤ 2 * (c * m) + m → 2 * (c * m) ≤ 2 * n + m →
      |(⟨c, exponent⟩ : Decimal).value - num / den| ≤ 10 ^ exponent / 2 := by
    intro c above below
    have above : (2 * n : ℚ) ≤ 2 * (c * m) + m := by exact_mod_cast above
    have below : (2 * (c * m) : ℚ) ≤ 2 * n + m := by exact_mod_cast below
    have near : |(c : ℚ) - n / m| ≤ 1 / 2 := by
      have lower : (n / m : ℚ) ≤ c + 1 / 2 := by
        rw [div_le_iff₀ scaled_pos']
        linarith
      have upper : (c : ℚ) - 1 / 2 ≤ n / m := by
        rw [le_div_iff₀ scaled_pos']
        linarith
      rw [abs_le]
      constructor <;> linarith
    calc |(⟨c, exponent⟩ : Decimal).value - num / den|
        = |(c : ℚ) - n / m| * 10 ^ exponent := by
          rw [counted, value, ← sub_mul, abs_mul, abs_of_pos unit_pos]
      _ ≤ 1 / 2 * 10 ^ exponent := by gcongr
      _ = 10 ^ exponent / 2 := by ring
  split <;> rename_i upper
  · have reached : (2 * (n / m) + 1) * m ≤ 2 * n := by
      rcases of_decide_eq_true upper with less | ⟨same, -⟩
      · exact less.le
      · exact same.le
    rw [Nat.add_mul, Nat.mul_assoc] at reached
    refine distance _ ?_ ?_ <;> rw [Nat.add_mul] <;> omega
  · have missed : 2 * n ≤ (2 * (n / m) + 1) * m := by
      by_contra less
      exact upper (decide_eq_true (.inl (not_le.mp less)))
    rw [Nat.add_mul, Nat.mul_assoc] at missed
    refine distance _ ?_ ?_ <;> omega

/-- Of the two decimals around a number the nearer one is tried first, so it is what is found if it
reads back. -/
theorem onGrid?_of_nearer (read : (nearer num den exponent).toPattern = pattern) :
    onGrid? pattern num den exponent = some (nearer num den exponent) := by
  unfold nearer at read ⊢
  unfold onGrid?
  dsimp only
  split <;> rename_i upper
  · rw [if_pos upper] at read
    rw [if_pos read]
  · rw [if_neg upper] at read
    rw [if_pos read]

/-- What is found on a grid reads back, and is one of the two neighbours: the nearer one is tried
first, and the other one after it. -/
theorem onGrid?_spec (found : onGrid? pattern num den exponent = some d) :
    d.toPattern = pattern ∧ d.coefficient ≤ floorAt num den exponent + 1 := by
  unfold onGrid? at found
  dsimp only at found
  split at found
  all_goals
    dsimp only at found
    split at found
    · rename_i read
      cases found
      exact ⟨read, by simp⟩
    · split at found
      · rename_i read
        cases found
        exact ⟨read, by simp⟩
      · cases found

/-- What the search finds was found on some grid, within the steps it had.  The induction is on
these steps, each of which tries one digit more. -/
theorem searchGrids_spec {fuel digits : ℕ}
    (found : searchGrids pattern num den order fuel digits = some d) :
    ∃ k, digits ≤ k ∧ k < digits + fuel ∧ onGrid? pattern num den (order - k + 1) = some d := by
  induction fuel generalizing digits with
  | zero => cases found
  | succ fuel ih =>
    unfold searchGrids at found
    split at found
    · rename_i here
      cases found
      exact ⟨digits, le_rfl, by omega, here⟩
    · obtain ⟨k, least, most, there⟩ := ih found
      exact ⟨k, by omega, by omega, there⟩

/-- If a grid within reach has a decimal that reads back, the search finds one, there or on a
coarser grid. -/
theorem exists_searchGrids {fuel digits k : ℕ} (least : digits ≤ k) (most : k < digits + fuel)
    (there : onGrid? pattern num den (order - k + 1) = some d) :
    ∃ found, searchGrids pattern num den order fuel digits = some found := by
  induction fuel generalizing digits with
  | zero => omega
  | succ fuel ih =>
    unfold searchGrids
    split
    · exact ⟨_, rfl⟩
    · rename_i missed
      refine ih ?_ (by omega)
      refine Nat.lt_of_le_of_ne least ?_
      rintro rfl
      rw [there] at missed
      cases missed

/-! ### The shortest decimal -/

/-- The lower neighbour on a grid of `k` digits has no more than `k` digits, since the fraction lies
below the power of ten that is next to its order. -/
theorem floorAt_lt {k : ℕ} (den_pos : 0 < den) (bounded : (num / den : ℚ) < 10 ^ (order + 1)) :
    floorAt num den (order - k + 1) < 10 ^ k := by
  have scaled_pos : 0 < den * Nat.pow 10 (order - k + 1).toNat :=
    Nat.mul_pos den_pos (Nat.pow_pos (by decide))
  refine (Binary64.div_lt_iff_cast scaled_pos (10 ^ k)).mpr ?_
  rw [units_div]
  have exponent : (order + 1) + -(order - k + 1) = (k : ℤ) := by ring
  calc (num / den : ℚ) * 10 ^ (-(order - k + 1))
      < 10 ^ (order + 1) * 10 ^ (-(order - k + 1)) := by gcongr
    _ = ((10 ^ k : ℕ) : ℚ) := by
      rw [← zpow_add₀ (by norm_num), exponent, zpow_natCast]
      push_cast
      rfl

/-- One of the neighbours of seventeen digits reads back.  The nearer one is at most half a unit of
the last digit away, which is as close as reading back requires. -/
theorem toPattern_nearer (pos : 0 < pattern) (small : pattern < Binary64.infinityPattern)
    (den_pos : 0 < den) (fraction : (num / den : ℚ) = (Binary64.magnitude pattern).value)
    (least : (10 : ℚ) ^ order ≤ (Binary64.magnitude pattern).value) :
    (nearer num den (order - maxDigits + 1)).toPattern = pattern := by
  refine toPattern_eq_of_near pos small ?_
  have near := value_nearer num den_pos (order - maxDigits + 1)
  have exponent : order - maxDigits + 1 = order + (-16 : ℤ) := by
    unfold maxDigits
    omega
  have unit : (10 : ℚ) ^ (-16 : ℤ) = 1 / 10 ^ 16 := by norm_num
  rw [exponent] at near ⊢
  rw [zpow_add₀ (by norm_num), unit, fraction] at near
  linarith

/-- The shortest decimal of a double reads back as the double, has no trailing zeros and at most
seventeen digits.  On the grid of seventeen digits the nearer neighbour always reads back, so the
search ends there at the latest. -/
theorem shortest_spec (pos : 0 < pattern) (small : pattern < Binary64.infinityPattern) :
    (shortest pattern).toPattern = pattern ∧ (shortest pattern).Trim ∧
      digitCount (shortest pattern).coefficient ≤ maxDigits := by
  have unsigned_eq : Binary64.unsigned pattern = pattern :=
    Nat.mod_eq_of_lt (lt_trans small (by decide))
  have fraction := (Binary64.magnitude pattern).numerator_div_denominator
  have den_pos := (Binary64.magnitude pattern).denominator_pos
  have value_pos := Binary64.value_magnitude_pos pos small
  obtain ⟨bounded, -⟩ := Binary64.value_magnitude_bounds pos small
  obtain ⟨least, most⟩ := bounds_of_pos value_pos
  have order := orderOf_eq den_pos (bounded.trans_eq fraction.symm)
  unfold shortest
  dsimp only
  rw [unsigned_eq, order, fraction]
  have nearby := onGrid?_of_nearer (toPattern_nearer pos small den_pos fraction least)
  obtain ⟨found, there⟩ := exists_searchGrids (show 1 ≤ maxDigits by decide)
    (show maxDigits < 1 + maxDigits by decide) nearby
  rw [there, Option.getD_some]
  obtain ⟨k, -, atMost, onGrid⟩ := searchGrids_spec there
  obtain ⟨read, coefficient⟩ := onGrid?_spec onGrid
  have few : found.coefficient ≤ 10 ^ maxDigits := by
    have below := floorAt_lt (k := k) den_pos (fraction.trans_lt most)
    have powers : 10 ^ k ≤ 10 ^ maxDigits := Nat.pow_le_pow_right (by decide) (by omega)
    omega
  have some : 0 < found.coefficient := by
    refine Nat.pos_of_ne_zero fun zero => ?_
    unfold toPattern at read
    rw [if_pos (.inl zero)] at read
    omega
  have trim := trim_normalize some
  refine ⟨?_, trim, digitCount_le_of_trim trim (by decide) ?_⟩
  · rw [toPattern_congr (value_normalize found), read]
  · exact le_trans (coefficient_trimZeros_le _ _) few

end Decimal
end Arbor
