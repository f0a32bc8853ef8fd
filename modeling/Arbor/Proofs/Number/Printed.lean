import Arbor.Proofs.Number.Bits
import Arbor.Proofs.Number.Notation
import Arbor.Proofs.Token.Rescan

/-!
# Printed numbers

The text of a finite double is the numeral of the shortest decimal that reads back as the double, so
all layouts denote the same rational, and the text of the language has no superfluous digits.  Two
doubles that differ in a bit differ in their text, unless both are not numbers.  A text without an
exponent is a number of the language, behind a minus sign if the double is negative.

## Main statements

* `Layout.toBits_of_text`: the text fixes the pattern.
* `Layout.scan_numeral`: numerals as program text.
* `Layout.printed_numbers`: printed numbers are exact, tidy and readable.
-/

namespace Arbor
namespace Layout

open Piece (isDigit)

variable {l : Layout} {x y : Float}

/-! ### The texts of doubles -/

/-- The text of a finite double other than zero. -/
theorem toList_text (plain : l.Plain) (finite : x.isFinite = true) (nonzero : ¬ (x == 0) = true) :
    (l.text x).toList = (l.numeral (Binary64.isNegative x.toBits.toNat)
      (Decimal.shortest (Binary64.unsigned x.toBits.toNat))).chars := by
  rw [Binary64.isFinite_iff] at finite
  rw [Binary64.beq_zero_iff] at nonzero
  rw [← decimalText_eq plain, text, String.toList_ofList, patternText]
  rw [if_neg (by omega), if_neg (by omega), if_neg nonzero]

theorem toList_text_zero (zero : (x == 0) = true) :
    (printed.text x).toList =
      Numeral.chars ⟨Binary64.isNegative x.toBits.toNat, ['0'], [], none⟩ := by
  rw [Binary64.beq_zero_iff] at zero
  rw [text, String.toList_ofList, patternText]
  rw [zero, if_neg (by decide), if_neg (by decide), if_pos rfl]
  rfl

/-- The text of an infinite double is its sign and a fixed word.  There is one pattern of infinity
for each sign, as infinity is the only one that is neither finite nor beyond. -/
theorem toList_text_infinity (number : x.isNaN = false) (infinite : x.isFinite = false) :
    Binary64.unsigned x.toBits.toNat = Binary64.infinityPattern ∧
      (printed.text x).toList = (if Binary64.isNegative x.toBits.toNat then ['-'] else []) ++
        printed.infinity := by
  have number : ¬ Binary64.infinityPattern < Binary64.unsigned x.toBits.toNat := by
    rw [← Binary64.isNaN_iff, number]
    decide
  have infinite : ¬ Binary64.unsigned x.toBits.toNat < Binary64.infinityPattern := by
    rw [← Binary64.isFinite_iff, infinite]
    decide
  have same : Binary64.unsigned x.toBits.toNat = Binary64.infinityPattern := by omega
  refine ⟨same, ?_⟩
  rw [text, String.toList_ofList, patternText]
  rw [if_neg number, if_pos same]

theorem ofText?_infinity (number : x.isNaN = false) (infinite : x.isFinite = false) :
    Numeral.ofText? (printed.text x) = none := by
  rw [Numeral.ofText?, (toList_text_infinity number infinite).2]
  cases Binary64.isNegative x.toBits.toNat <;> decide

/-- The text of a finite double is read as its sign and its magnitude.  The zeros are written in
their own way, and all others by their shortest decimal, which reads back. -/
theorem ofText?_text (finite : x.isFinite = true) :
    ∃ n, Numeral.ofText? (printed.text x) = some n ∧
      n.negative = Binary64.isNegative x.toBits.toNat ∧
      n.decimal.toPattern = Binary64.unsigned x.toBits.toNat := by
  by_cases zero : (x == 0) = true
  · refine ⟨⟨Binary64.isNegative x.toBits.toNat, ['0'], [], none⟩, ?_, rfl, ?_⟩
    · rw [Numeral.ofText?, toList_text_zero zero]
      exact Numeral.ofChars?_chars ⟨nofun, by simpa using by decide, nofun, nofun⟩
    · rw [Binary64.beq_zero_iff] at zero
      rw [zero]
      rfl
  · refine ⟨printed.numeral (Binary64.isNegative x.toBits.toNat)
      (Decimal.shortest (Binary64.unsigned x.toBits.toNat)), ?_, ?_, ?_⟩
    · rw [Numeral.ofText?, toList_text plain_printed finite zero]
      exact Numeral.ofChars?_chars (formed_numeral plain_printed _ _)
    · unfold numeral
      dsimp only
      split <;> rfl
    · rw [Decimal.toPattern_congr (decimal_numeral plain_printed _ _)]
      rw [Binary64.isFinite_iff] at finite
      rw [Binary64.beq_zero_iff] at zero
      exact (Decimal.shortest_spec (Nat.pos_of_ne_zero zero) finite).1

end Layout

namespace Binary64

/-- A pattern is its sign and its unsigned part, the first bit and all others. -/
theorem eq_of_parts {bits bits' : UInt64} (sign : isNegative bits.toNat = isNegative bits'.toNat)
    (same : unsigned bits.toNat = unsigned bits'.toNat) : bits = bits' := by
  have bound := bits.toNat_lt
  have bound' := bits'.toNat_lt
  have signs : 2 ^ 63 ≤ bits.toNat ↔ 2 ^ 63 ≤ bits'.toNat := by
    simpa [isNegative] using sign
  have parts : bits.toNat % 2 ^ 63 = bits'.toNat % 2 ^ 63 := same
  exact UInt64.toNat_inj.mp (by omega)

end Binary64

namespace Layout

/-- Doubles that are printed alike have the same pattern.  A finite one is read back from its text,
and the text of an infinite one is read as no number at all. -/
theorem toBits_of_text (number : x.isNaN = false) (number' : y.isNaN = false)
    (same : printed.text x = printed.text y) : x.toBits = y.toBits := by
  cases finite : x.isFinite with
  | true =>
    obtain ⟨n, read, sign, magnitude⟩ := ofText?_text finite
    cases finite' : y.isFinite with
    | true =>
      obtain ⟨n', read', sign', magnitude'⟩ := ofText?_text finite'
      rw [same, read'] at read
      cases read
      exact Binary64.eq_of_parts (sign.symm.trans sign') (magnitude.symm.trans magnitude')
    | false =>
      rw [same, ofText?_infinity number' finite'] at read
      cases read
  | false =>
    cases finite' : y.isFinite with
    | true =>
      obtain ⟨n', read', -⟩ := ofText?_text finite'
      rw [← same, ofText?_infinity number finite] at read'
      cases read'
    | false =>
      obtain ⟨magnitude, text⟩ := toList_text_infinity number finite
      obtain ⟨magnitude', text'⟩ := toList_text_infinity number' finite'
      refine Binary64.eq_of_parts ?_ (magnitude.trans magnitude'.symm)
      have signs := text.symm.trans ((congrArg String.toList same).trans text')
      cases sign : Binary64.isNegative x.toBits.toNat <;>
        cases sign' : Binary64.isNegative y.toBits.toNat
      · rfl
      · rw [sign, sign'] at signs
        exact absurd signs (by decide)
      · rw [sign, sign'] at signs
        exact absurd signs (by decide)
      · rfl

/-! ### Printed numbers as program text -/

/-- A numeral without an exponent is scanned as one number, behind a minus sign if it is negative. -/
theorem scan_numeral {n : Numeral} (formed : n.Formed) (unscaled : n.exponent = none)
    {text : String} (spelled : text.toList = n.chars) :
    (Scan.ofText text).reports = #[] ∧ (Scan.ofText text).contents =
      (if n.negative then [(.minus, "-", .nil)] else []) ++
        [(.number, String.ofList n.point, .number n.decimal.toFloat), (.endOfText, "", .nil)] := by
  have decimal : n.decimal = Decimal.ofDigits n.whole n.fraction := by
    simp [Numeral.decimal, Numeral.scale, unscaled, Decimal.ofDigits]
  have spells : Token.Spells .number (.number n.decimal.toFloat) n.point := by
    rw [decimal]
    unfold Numeral.point
    by_cases fraction : n.fraction = []
    · rw [if_pos fraction, List.append_nil, fraction]
      exact .whole formed.nonempty formed.whole
    · rw [if_neg fraction]
      exact .fraction formed.nonempty formed.whole fraction formed.fraction
  have number : Piece.Munches n.point [⟨.token .number (.number n.decimal.toFloat), n.point⟩] := by
    simpa using Piece.Munches.cons (Piece.munched_of_spells spells Piece.setsOff_nil) .nil
  have chars : text.toList = (if n.negative then ['-'] else []) ++ n.point := by
    rw [spelled, Numeral.chars, unscaled, Option.elim_none, List.append_nil]
  cases sign : n.negative with
  | false =>
    rw [sign] at chars
    have munches : Piece.Munches text.toList
        [⟨.token .number (.number n.decimal.toFloat), n.point⟩] := by
      rw [chars]
      exact number
    exact Scan.ofText_of_munches munches (by simp [Piece.Fine])
  | true =>
    rw [sign] at chars
    have minus : Piece.Munched n.point ⟨.token .minus .nil, ['-']⟩ := Piece.munched_front '-' n.point
    have munches : Piece.Munches text.toList [⟨.token .minus .nil, ['-']⟩,
        ⟨.token .number (.number n.decimal.toFloat), n.point⟩] := by
      rw [chars]
      exact .cons minus number
    exact Scan.ofText_of_munches munches (by simp [Piece.Fine])

/-- A finite double other than zero is printed as a numeral that denotes the same rational as its
shortest decimal form, without superfluous digits, and with an exponent exactly if the leading digit
stands at `10 ^ 15` or higher or below `10 ^ -4`; without one, the text is scanned as the absolute
value, behind a minus sign if the double is negative.  Numbers with different patterns are printed
differently. -/
theorem printed_numbers :
    (∀ x : Float, x.isFinite = true → ¬ (x == 0) = true → ∃ n r : Numeral,
      (Numeral.ofText? (listed.text x) = some r ∧ r.decimal.toFloat = x.abs ∧
        Decimal.digitCount r.decimal.normalize.coefficient ≤ 17) ∧
      (Numeral.ofText? (printed.text x) = some n ∧ (printed.text x).toList = n.chars ∧
        n.value = r.value ∧ (n.negative = true ↔ x < 0)) ∧
      (n.Tidy ∧ (printed.text x).toList.getLast? ≠ some '.') ∧
      (n.exponent.isSome = true ↔ 15 ≤ Int.log 10 |n.value| ∨ Int.log 10 |n.value| < -4) ∧
      (∀ e, n.exponent = some e → e.mark = 'E' ∧ e.value = Int.log 10 |n.value|) ∧
      (n.exponent = none → (Scan.ofText (printed.text x)).reports = #[] ∧
        (Scan.ofText (printed.text x)).contents =
          (if n.negative then [(.minus, "-", .nil)] else []) ++
            [(.number, String.ofList n.point, .number x.abs), (.endOfText, "", .nil)])) ∧
    ∀ x y : Float, x.isNaN = false → y.isNaN = false → x.toBits ≠ y.toBits →
      printed.text x ≠ printed.text y := by
  constructor
  · intro x finite nonzero
    have small := Binary64.isFinite_iff.mp finite
    have pos := Nat.pos_of_ne_zero (mt Binary64.beq_zero_iff.mpr nonzero)
    obtain ⟨read, trim, few⟩ := Decimal.shortest_spec pos small
    have sign := Binary64.lt_zero_iff finite nonzero
    have spelled := toList_text plain_printed finite nonzero
    have spelled' := toList_text plain_listed finite nonzero
    have abs := Binary64.abs_eq x
    generalize Binary64.unsigned x.toBits.toNat = pattern at *
    generalize Binary64.isNegative x.toBits.toNat = negative at *
    generalize Decimal.shortest pattern = d at *
    have formed := formed_numeral plain_printed negative d
    have value : (printed.numeral negative d).decimal.value = d.value :=
      decimal_numeral plain_printed negative d
    have value' : (listed.numeral negative d).decimal.value = d.value :=
      decimal_numeral plain_listed negative d
    have reads : ∀ n : Numeral, n.decimal.value = d.value → n.decimal.toFloat = x.abs := by
      intro n same
      rw [abs, Decimal.toFloat, Decimal.toPattern_congr same, read]
    have magnitude : Int.log 10 |(printed.numeral negative d).value| = d.leadingExponent := by
      rw [Numeral.abs_value, value, Decimal.log_value trim.pos]
    refine ⟨printed.numeral negative d, listed.numeral negative d, ⟨?_, reads _ value', ?_⟩,
      ⟨?_, spelled, ?_, ?_⟩, ⟨tidy_numeral rfl trim negative, ?_⟩, ?_, ?_, ?_⟩
    · rw [Numeral.ofText?, spelled']
      exact Numeral.ofChars?_chars (formed_numeral plain_listed negative d)
    · have same : (listed.numeral negative d).decimal.normalize = d := by
        refine (Decimal.trim_normalize (Nat.pos_of_ne_zero fun zero => ?_)).unique trim
          ((Decimal.value_normalize _).trans value')
        rw [Decimal.coefficient_eq_zero_iff, value', ← Decimal.coefficient_eq_zero_iff] at zero
        exact trim.pos.ne' zero
      rw [same]
      exact few
    · rw [Numeral.ofText?, spelled]
      exact Numeral.ofChars?_chars formed
    · rw [Numeral.value, Numeral.value, value, value', negative_numeral, negative_numeral]
    · rw [negative_numeral, sign]
    · rw [spelled]
      exact Numeral.getLast?_chars_ne_point formed
    · rw [magnitude]
      exact isSome_exponent_numeral
    · intro e written
      rw [magnitude]
      exact eq_of_exponent_numeral written
    · intro unscaled
      rw [← reads _ value]
      exact scan_numeral formed unscaled spelled
  · intro x y number number' different same
    exact different (toBits_of_text number number' same)

/-- A negative number below one, which is printed without an exponent, and the two zeros. -/
theorem printed_numbers_thousandth :
    ((Float.ofBits 0xBF50624DD2F1A9FC).isFinite = true ∧
      ¬ (Float.ofBits 0xBF50624DD2F1A9FC == 0) = true ∧
      printed.text (Float.ofBits 0xBF50624DD2F1A9FC) = "-0.001" ∧
      ∃ n r : Numeral, Numeral.ofText? "-0.001" = some n ∧
        Numeral.ofText? (listed.text (Float.ofBits 0xBF50624DD2F1A9FC)) = some r ∧
        n.value = r.value ∧ Numeral.Tidy n ∧ (Scan.ofText "-0.001").reports = #[]) ∧
    printed.text (Float.ofBits 0) ≠ printed.text (Float.ofBits 0x8000000000000000) := by
  have finite : (Float.ofBits 0xBF50624DD2F1A9FC).isFinite = true := by decide +kernel
  have nonzero : ¬ (Float.ofBits 0xBF50624DD2F1A9FC == 0) = true := by decide +kernel
  have text : printed.text (Float.ofBits 0xBF50624DD2F1A9FC) = "-0.001" := by decide +kernel
  obtain ⟨n, r, ⟨listed, -⟩, ⟨read, -, same, -⟩, ⟨tidy, -⟩, -, -, scanned⟩ :=
    printed_numbers.1 _ finite nonzero
  rw [text] at read scanned
  have unscaled : n.exponent = none := by
    have parts : Numeral.ofText? "-0.001" = some ⟨true, ['0'], ['0', '0', '1'], none⟩ := by
      decide +kernel
    rw [parts] at read
    cases read
    rfl
  exact ⟨⟨finite, nonzero, text, n, r, read, listed, same, tidy, (scanned unscaled).1⟩,
    printed_numbers.2 _ _ (by decide +kernel) (by decide +kernel) (by decide +kernel)⟩

end Layout
end Arbor
