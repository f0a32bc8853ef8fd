import Arbor.Proofs.Number.Numeral

/-!
# Layouts as numerals

What a layout sets is a numeral: the digits of a decimal, cut at the point or followed by an
exponent.  The numeral denotes the decimal whatever the layout, and if the decimal has no trailing
zeros and whole numbers are left without a point, no digit of it is superfluous.

## Main definitions

* `Layout.numeral`: the numeral of a decimal.

## Main statements

* `Layout.decimalText_eq`: a decimal is set as its numeral.
* `Layout.decimal_numeral`: the numeral of a decimal stands for it.
* `Layout.tidy_numeral`: no digit is superfluous.
-/

namespace Arbor

open Piece (isDigit)

namespace Decimal

variable {d d' : Decimal} {k : ℕ}

/-! ### Digits -/

/-- What a natural is written with are digits. -/
theorem isDigit_of_mem_toDigits {n : ℕ} {c : Char} (mem : c ∈ Nat.toDigits 10 n) :
    isDigit c = true := by
  have digit := Nat.isDigit_of_mem_toDigits (by decide) (by decide) mem
  rw [Char.isDigit, Bool.and_eq_true, decide_eq_true_iff, decide_eq_true_iff] at digit
  exact decide_eq_true digit

/-- The value of digits as the library computes it, from the left. -/
theorem digitsValue_eq (digits : List Char) : digitsValue digits = Nat.ofDigitChars 10 digits 0 :=
  rfl

/-- A natural written in digits has its own value. -/
@[simp]
theorem digitsValue_toDigits (n : ℕ) : digitsValue (Nat.toDigits 10 n) = n :=
  Nat.ofDigitChars_ten_toDigits

/-- Digits behind others move those to the left by as many places. -/
theorem digitsValue_append (digits digits' : List Char) :
    digitsValue (digits ++ digits') =
      10 ^ digits'.length * digitsValue digits + digitsValue digits' := by
  simp only [digitsValue_eq, Nat.ofDigitChars_append]
  exact Nat.ofDigitChars_eq_ofDigitChars_zero

/-- Zeros alone are worth nothing. -/
@[simp]
theorem digitsValue_zeros (k : ℕ) : digitsValue (List.replicate k '0') = 0 := by
  rw [digitsValue_eq, Nat.ofDigitChars_replicate_zero, Nat.mul_zero]

@[simp]
theorem digitsValue_nil : digitsValue [] = 0 :=
  rfl

/-- So is a zero in front. -/
@[simp]
theorem digitsValue_zero_cons (digits : List Char) :
    digitsValue ('0' :: digits) = digitsValue digits :=
  rfl

/-- Of the ten digits only that of zero is a zero. -/
theorem digitChar_eq_zero_iff (small : k < 10) : k.digitChar = '0' ↔ k = 0 := by
  revert k
  decide

/-- The last digit is the remainder, which is why a decimal without trailing zeros does not end in
one. -/
theorem getLast?_toDigits (n : ℕ) :
    (Nat.toDigits 10 n).getLast? = some (n % 10).digitChar := by
  rw [Nat.toDigits_eq_if (by decide)]
  split
  · rename_i small
    rw [Nat.mod_eq_of_lt small]
    rfl
  · simp

/-- The first digit of a positive natural is not zero.  The induction drops the last digit, and ends
at a natural that is the one digit itself. -/
theorem head?_toDigits {n : ℕ} (pos : 0 < n) : (Nat.toDigits 10 n).head? ≠ some '0' := by
  induction n using Nat.strongRecOn with
  | ind n ih =>
    rw [Nat.toDigits_eq_if (by decide)]
    split
    · rename_i small
      simpa [digitChar_eq_zero_iff small] using pos.ne'
    · rename_i large
      have shorter := ih (n / 10) (Nat.div_lt_self pos (by decide)) (by omega)
      simpa [List.head?_append_of_ne_nil _ Nat.toDigits_ne_nil] using shorter

/-- Of two decimals of one value the one without trailing zeros has the larger exponent.  With a
smaller one its coefficient would be a multiple of ten. -/
theorem Trim.exponent_le (trim : d.Trim) (same : d.value = d'.value) : d'.exponent ≤ d.exponent := by
  by_contra less
  obtain ⟨k, exponent⟩ : ∃ k : ℕ, d'.exponent = d.exponent + (k + 1 : ℕ) :=
    ⟨(d'.exponent - d.exponent - 1).toNat, by omega⟩
  have power : (10 : ℚ) ^ d.exponent ≠ 0 := by positivity
  unfold value at same
  rw [exponent, zpow_add₀ (by norm_num), zpow_natCast, mul_left_comm, mul_comm] at same
  have coefficients : (d.coefficient : ℚ) = d'.coefficient * 10 ^ (k + 1) :=
    mul_left_cancel₀ power same
  have coefficients : d.coefficient = d'.coefficient * 10 ^ (k + 1) := by
    exact_mod_cast coefficients
  have last := trim.last
  rw [coefficients, pow_succ, ← Nat.mul_assoc, Nat.mul_mod_left] at last
  exact last rfl

/-- A rational has at most one decimal without trailing zeros.  The exponents are equal since
neither is the larger one, and then the coefficients are. -/
theorem Trim.unique (trim : d.Trim) (trim' : d'.Trim) (same : d.value = d'.value) : d = d' := by
  have exponents : d.exponent = d'.exponent :=
    le_antisymm (trim'.exponent_le same.symm) (trim.exponent_le same)
  have power : (10 : ℚ) ^ d'.exponent ≠ 0 := by positivity
  unfold value at same
  rw [exponents] at same
  have coefficients : d.coefficient = d'.coefficient := by
    exact_mod_cast mul_right_cancel₀ power same
  cases d
  cases d'
  congr

end Decimal

namespace Layout

variable {l : Layout} {d : Decimal}

/-- A layout that marks exponents with an `e` and writes whole numbers as such, or with a zero
behind the point. -/
structure Plain (l : Layout) : Prop where
  mark : l.mark = 'e' ∨ l.mark = 'E'
  suffix : l.wholeSuffix = [] ∨ l.wholeSuffix = ['.', '0']

/-- Printed numbers have the usual mark, and no fraction on whole numbers. -/
theorem plain_printed : printed.Plain :=
  ⟨.inr rfl, .inl rfl⟩

/-- Listed numbers have the usual mark, and one zero behind the point of whole numbers. -/
theorem plain_listed : listed.Plain :=
  ⟨.inl rfl, .inr rfl⟩

/-- The exponent of a numeral. -/
def exponentNumeral (mark : Char) (order : ℤ) : Numeral.Exponent :=
  ⟨mark, decide (order < 0),
    List.replicate (2 - (Nat.toDigits 10 order.natAbs).length) '0' ++ Nat.toDigits 10 order.natAbs⟩

/-- The digits of a numeral that is written positionally: those in front of the point, and those
behind it. -/
def positionalParts (suffix digits : List Char) (order : ℤ) : List Char × List Char :=
  if order < 0 then (['0'], List.replicate (-order - 1).toNat '0' ++ digits)
  else if digits.length ≤ order.toNat + 1 then
    (digits ++ List.replicate (order.toNat + 1 - digits.length) '0', suffix.tail)
  else (digits.take (order.toNat + 1), digits.drop (order.toNat + 1))

/-- A layout writes a decimal with an exponent. -/
def Scaled (l : Layout) (d : Decimal) : Prop :=
  l.exponentFrom ≤ d.leadingExponent ∨ d.leadingExponent < l.exponentBelow

instance (l : Layout) (d : Decimal) : Decidable (l.Scaled d) :=
  inferInstanceAs (Decidable (_ ∨ _))

/-- The numeral of a decimal. -/
def numeral (l : Layout) (negative : Bool) (d : Decimal) : Numeral :=
  let digits := Nat.toDigits 10 d.coefficient
  if l.Scaled d then
    ⟨negative, digits.take 1, digits.drop 1, some (exponentNumeral l.mark d.leadingExponent)⟩
  else
    let parts := positionalParts l.wholeSuffix digits d.leadingExponent
    ⟨negative, parts.1, parts.2, none⟩

/-- An exponent is set as the exponent of a numeral. -/
theorem exponentText_eq (mark : Char) (order : ℤ) :
    mark :: exponentText order = (exponentNumeral mark order).chars := by
  unfold exponentText exponentNumeral Numeral.Exponent.chars
  rcases le_or_gt 0 order with up | down
  · simp [up, not_lt.mpr up]
  · simp [down, not_le.mpr down]

/-- In front of an exponent the digits are cut behind the first one. -/
theorem mantissaText_eq (digits : List Char) :
    mantissaText digits =
      digits.take 1 ++ if digits.drop 1 = [] then [] else '.' :: digits.drop 1 := by
  match digits with
  | [] => rfl
  | [_] => rfl
  | _ :: _ :: _ => rfl

/-- Without an exponent the digits are cut where the point is; zeros fill what is missing on either
side.  A point is set only if something follows it, which is why the parts are compared as lists. -/
theorem positionalText_eq {suffix digits : List Char} (plain : suffix = [] ∨ suffix = ['.', '0'])
    (some : digits ≠ []) (order : ℤ) :
    positionalText suffix digits order = (positionalParts suffix digits order).1 ++
      if (positionalParts suffix digits order).2 = [] then []
      else '.' :: (positionalParts suffix digits order).2 := by
  unfold positionalText positionalParts
  dsimp only
  split
  · simp [some]
  · split
    · rcases plain with rfl | rfl <;> simp
    · rename_i longer
      have behind : digits.drop (order.toNat + 1) ≠ [] := by
        rw [Ne, List.drop_eq_nil_iff]
        exact longer
      rw [if_neg behind]

/-- The numeral of a decimal that is set with an exponent. -/
theorem numeral_scaled (scaled : l.Scaled d) (negative : Bool) :
    l.numeral negative d = ⟨negative, (Nat.toDigits 10 d.coefficient).take 1,
      (Nat.toDigits 10 d.coefficient).drop 1, some (exponentNumeral l.mark d.leadingExponent)⟩ :=
  if_pos scaled

/-- The numeral of a decimal that is set without one. -/
theorem numeral_positional (positional : ¬ l.Scaled d) (negative : Bool) :
    l.numeral negative d = ⟨negative,
      (positionalParts l.wholeSuffix (Nat.toDigits 10 d.coefficient) d.leadingExponent).1,
      (positionalParts l.wholeSuffix (Nat.toDigits 10 d.coefficient) d.leadingExponent).2, none⟩ :=
  if_neg positional

/-- The sign is that of the number, and does not depend on how the digits are set. -/
theorem negative_numeral (negative : Bool) (d : Decimal) :
    (l.numeral negative d).negative = negative := by
  by_cases scaled : l.Scaled d
  · rw [numeral_scaled scaled]
  · rw [numeral_positional scaled]

/-- A numeral has an exponent exactly for decimals outside the range that is set positionally. -/
theorem isSome_exponent_numeral {negative : Bool} :
    (l.numeral negative d).exponent.isSome = true ↔ l.Scaled d := by
  by_cases scaled : l.Scaled d
  · rw [numeral_scaled scaled]
    exact iff_of_true rfl scaled
  · rw [numeral_positional scaled]
    exact iff_of_false nofun scaled

/-- A decimal is written as its numeral, in the notation with an exponent and in the one without. -/
theorem decimalText_eq (plain : l.Plain) (negative : Bool) (d : Decimal) :
    (if negative then ['-'] else []) ++ l.decimalText d = (l.numeral negative d).chars := by
  by_cases scaled : l.Scaled d
  · have text : l.decimalText d = mantissaText (Nat.toDigits 10 d.coefficient) ++
        l.mark :: exponentText d.leadingExponent := if_pos scaled
    rw [text, numeral_scaled scaled, exponentText_eq, mantissaText_eq]
    rfl
  · have text : l.decimalText d = positionalText l.wholeSuffix (Nat.toDigits 10 d.coefficient)
        d.leadingExponent := if_neg scaled
    rw [text, numeral_positional scaled, positionalText_eq plain.suffix Nat.toDigits_ne_nil]
    simp [Numeral.chars, Numeral.point]

/-- An exponent is marked by a letter and written with digits. -/
theorem formed_exponentNumeral {mark : Char} (marked : mark = 'e' ∨ mark = 'E') (order : ℤ) :
    (exponentNumeral mark order).Formed := by
  refine ⟨marked, by simp [exponentNumeral, Nat.toDigits_ne_nil], ?_⟩
  intro c mem
  rcases List.mem_append.mp mem with mem | mem
  · rw [List.eq_of_mem_replicate mem]
    decide
  · exact Decimal.isDigit_of_mem_toDigits mem

/-- What a layout sets is a numeral, whatever the decimal.  There is a case for each place that the
point can have: in front of all digits, behind them, or between two of them. -/
theorem formed_numeral (plain : l.Plain) (negative : Bool) (d : Decimal) :
    (l.numeral negative d).Formed := by
  have digits : ∀ c ∈ Nat.toDigits 10 d.coefficient, isDigit c = true :=
    fun c mem => Decimal.isDigit_of_mem_toDigits mem
  have zeros : ∀ (k : ℕ) (c : Char), c ∈ List.replicate k '0' → isDigit c = true := by
    intro k c mem
    rw [List.eq_of_mem_replicate mem]
    decide
  by_cases scaled : l.Scaled d
  · rw [numeral_scaled scaled]
    refine ⟨?_, fun c mem => digits c (List.mem_of_mem_take mem),
      fun c mem => digits c (List.mem_of_mem_drop mem), ?_⟩
    · simp [Nat.toDigits_ne_nil]
    · intro e same
      cases same
      exact formed_exponentNumeral plain.mark _
  · rw [numeral_positional scaled]
    unfold positionalParts
    split
    · refine ⟨by simp, by simpa using by decide, ?_, nofun⟩
      intro c mem
      rcases List.mem_append.mp mem with mem | mem
      · exact zeros _ c mem
      · exact digits c mem
    · split
      · refine ⟨by simp [Nat.toDigits_ne_nil], ?_, ?_, nofun⟩
        · intro c mem
          rcases List.mem_append.mp mem with mem | mem
          · exact digits c mem
          · exact zeros _ c mem
        · rcases plain.suffix with suffix | suffix
          · simp [suffix]
          · simpa [suffix] using by decide
      · exact ⟨by simp [Nat.toDigits_ne_nil], fun c mem => digits c (List.mem_of_mem_take mem),
          fun c mem => digits c (List.mem_of_mem_drop mem), nofun⟩

/-- An exponent has the value that it was made of, although it may be written with a zero in
front. -/
theorem value_exponentNumeral (mark : Char) (order : ℤ) :
    (exponentNumeral mark order).value = order := by
  unfold exponentNumeral Numeral.Exponent.value
  simp only [Decimal.digitsValue_append, Decimal.digitsValue_zeros, Decimal.digitsValue_toDigits]
  rcases lt_or_ge order 0 with down | up
  · simp [down, abs_of_neg down]
  · simp [not_lt.mpr up, abs_of_nonneg up]

/-- An exponent that is written is that of the leading digit. -/
theorem eq_of_exponent_numeral {negative : Bool} {e : Numeral.Exponent}
    (written : (l.numeral negative d).exponent = some e) :
    e.mark = l.mark ∧ e.value = d.leadingExponent := by
  have scaled : l.Scaled d := isSome_exponent_numeral.mp (Option.isSome_of_eq_some written)
  rw [numeral_scaled scaled] at written
  cases written
  exact ⟨rfl, value_exponentNumeral _ _⟩

/-- The numeral of a decimal stands for it.  Zeros that were filled in on the left change nothing,
and those on the right are made up for by the exponent, so the cut may be anywhere. -/
theorem decimal_numeral (plain : l.Plain) (negative : Bool) (d : Decimal) :
    (l.numeral negative d).decimal.value = d.value := by
  have leading : d.leadingExponent =
    d.exponent + (Nat.toDigits 10 d.coefficient).length - 1 := rfl
  have count : 0 < (Nat.toDigits 10 d.coefficient).length := Nat.length_toDigits_pos
  by_cases scaled : l.Scaled d
  · have same : (l.numeral negative d).decimal = d := by
      rw [numeral_scaled scaled]
      unfold Numeral.decimal Numeral.scale
      simp only [List.take_append_drop, Decimal.digitsValue_toDigits, Option.elim_some,
        value_exponentNumeral, List.length_drop]
      rw [leading]
      congr 1
      omega
    rw [same]
  · rw [numeral_positional scaled]
    unfold positionalParts Numeral.decimal Numeral.scale
    split
    · rename_i small
      have coefficient : Decimal.digitsValue (['0'] ++
          (List.replicate (-d.leadingExponent - 1).toNat '0' ++ Nat.toDigits 10 d.coefficient)) =
          d.coefficient := by
        simp [Decimal.digitsValue_append]
      have exponent : (0 : ℤ) - (List.replicate (-d.leadingExponent - 1).toNat '0' ++
          Nat.toDigits 10 d.coefficient).length = d.exponent := by
        rw [List.length_append, List.length_replicate]
        omega
      simp only [Option.elim_none, coefficient, exponent]
    · split
      · rename_i large long
        have exponent : d.exponent =
            ((d.leadingExponent.toNat + 1 - (Nat.toDigits 10 d.coefficient).length : ℕ) : ℤ) := by
          omega
        rcases plain.suffix with suffix | suffix
        · simp [suffix, Decimal.value, Decimal.digitsValue_append, exponent, mul_comm]
        · have tail : ['.', '0'].tail = ['0'] := rfl
          simp [suffix, tail, Decimal.value, Decimal.digitsValue_append, exponent]
          ring
      · have exponent : (0 : ℤ) - ((Nat.toDigits 10 d.coefficient).drop
            (d.leadingExponent.toNat + 1)).length = d.exponent := by
          rw [List.length_drop]
          omega
        simp only [Option.elim_none, List.take_append_drop, Decimal.digitsValue_toDigits, exponent]

/-! ### No superfluous digits -/

/-- An exponent has two digits at least, and a zero in front only to reach two.  Its own digits
begin with another digit, unless it is zero. -/
theorem tidy_exponentNumeral (mark : Char) (order : ℤ) :
    2 ≤ (exponentNumeral mark order).digits.length ∧
      ((exponentNumeral mark order).digits.head? = some '0' →
        (exponentNumeral mark order).digits.length = 2) := by
  have digits : (exponentNumeral mark order).digits =
    List.replicate (2 - (Nat.toDigits 10 order.natAbs).length) '0' ++
      Nat.toDigits 10 order.natAbs := rfl
  rw [digits, List.length_append, List.length_replicate]
  refine ⟨by omega, fun first => ?_⟩
  by_contra long
  have none : 2 - (Nat.toDigits 10 order.natAbs).length = 0 := by omega
  rw [none, List.replicate_zero, List.nil_append] at first
  refine Decimal.head?_toDigits (Nat.pos_of_ne_zero fun zero => ?_) first
  rw [zero, Nat.toDigits_zero] at long
  exact long rfl

/-- What is left of digits behind some of them has the same last digit. -/
theorem getLast?_drop_ne {digits : List Char} (last : digits.getLast? ≠ some '0') (k : ℕ) :
    (digits.drop k).getLast? ≠ some '0' := by
  rw [List.getLast?_drop]
  split
  · exact nofun
  · exact last

/-- No digit of the numeral is superfluous, if the decimal has no trailing zeros and the layout
leaves whole numbers without a point. -/
theorem tidy_numeral (suffix : l.wholeSuffix = []) (trim : d.Trim) (negative : Bool) :
    (l.numeral negative d).Tidy := by
  have first := Decimal.head?_toDigits trim.pos
  have last : (Nat.toDigits 10 d.coefficient).getLast? ≠ some '0' := by
    rw [Decimal.getLast?_toDigits]
    simpa [Decimal.digitChar_eq_zero_iff (Nat.mod_lt d.coefficient (by decide))] using trim.last
  have nonempty : Nat.toDigits 10 d.coefficient ≠ [] := Nat.toDigits_ne_nil
  by_cases scaled : l.Scaled d
  · rw [numeral_scaled scaled]
    obtain ⟨c, rest, digits⟩ := List.exists_cons_of_ne_nil nonempty
    rw [digits] at first last ⊢
    refine ⟨fun zero => absurd zero first, getLast?_drop_ne last 1, ?_⟩
    intro e same
    cases same
    refine ⟨rfl, ?_, tidy_exponentNumeral _ _⟩
    rintro zero
    exact first (congrArg List.head? zero)
  · rw [numeral_positional scaled]
    unfold positionalParts
    split
    · refine ⟨fun _ => rfl, ?_, nofun⟩
      simpa [List.getLast?_append_of_ne_nil _ nonempty] using last
    · split
      · refine ⟨fun zero => absurd ?_ first, by simp [suffix], nofun⟩
        simpa [List.head?_append_of_ne_nil _ nonempty] using zero
      · refine ⟨fun zero => absurd ?_ first, getLast?_drop_ne last _, nofun⟩
        rwa [List.head?_take, if_neg (by omega)] at zero

end Layout
end Arbor
