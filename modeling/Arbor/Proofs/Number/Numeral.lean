import Arbor.Number.Layout
import Arbor.Token.Piece
import Arbor.Proofs.Number.ReadBack

/-!
# Numerals

A numeral is the text of a number in its parts: a sign, digits, a point with further digits if there
are any, and an exponent.  It denotes a rational.  A text is read as at most one numeral, so what a
text denotes is a function of the text.

## Main definitions

* `Numeral`: a numeral in its parts.
* `Numeral.chars`, `Numeral.ofText?`: writing and reading.
* `Numeral.value`: the rational denoted.
* `Numeral.Tidy`: no digit is superfluous.

## Main statements

* `Numeral.ofChars?_chars`: what is written is read.
-/

namespace Arbor

open Piece (isDigit fractionPart)

/-- An exponent: the mark in front of it, its sign and its digits. -/
structure Numeral.Exponent where
  mark : Char
  negative : Bool
  digits : List Char
deriving DecidableEq, Repr

/-- A numeral.  There is a point if there are digits behind it. -/
structure Numeral where
  negative : Bool
  whole : List Char
  fraction : List Char
  exponent : Option Numeral.Exponent
deriving DecidableEq, Repr

namespace Numeral

namespace Exponent

/-- The number that an exponent stands for. -/
def value (e : Exponent) : ℤ :=
  if e.negative then -(Decimal.digitsValue e.digits : ℤ) else Decimal.digitsValue e.digits

/-- An exponent as text. -/
def chars (e : Exponent) : List Char :=
  e.mark :: (if e.negative then '-' else '+') :: e.digits

/-- An exponent with a mark and digits. -/
structure Formed (e : Exponent) : Prop where
  mark : e.mark = 'e' ∨ e.mark = 'E'
  nonempty : e.digits ≠ []
  digits : ∀ c ∈ e.digits, isDigit c = true

/-- Reads an exponent. -/
def ofChars? : List Char → Option Exponent
  | mark :: sign :: digits =>
    if (mark = 'e' ∨ mark = 'E') ∧ (sign = '-' ∨ sign = '+') ∧ digits ≠ [] ∧
        digits.all isDigit = true then
      some ⟨mark, sign == '-', digits⟩
    else none
  | _ => none

theorem ofChars?_chars {e : Exponent} (formed : e.Formed) : ofChars? e.chars = some e := by
  obtain ⟨mark, negative, digits⟩ := e
  obtain ⟨marked, nonempty, each⟩ := formed
  have all : digits.all isDigit = true := List.all_eq_true.mpr each
  cases negative <;> simp [ofChars?, chars, marked, nonempty, all]

end Exponent

variable {n : Numeral}

/-- The exponent of a numeral, zero if none is written. -/
def scale (n : Numeral) : ℤ :=
  n.exponent.elim 0 Exponent.value

/-- The absolute value of a numeral, as a decimal. -/
def decimal (n : Numeral) : Decimal :=
  ⟨Decimal.digitsValue (n.whole ++ n.fraction), n.scale - n.fraction.length⟩

/-- The rational that a numeral denotes. -/
def value (n : Numeral) : ℚ :=
  (if n.negative then -1 else 1) * n.decimal.value

/-- The sign of a numeral is that of its value, since the decimal behind it is not negative. -/
theorem abs_value (n : Numeral) : |n.value| = n.decimal.value := by
  have nonneg : 0 ≤ n.decimal.value := by
    unfold Decimal.value
    positivity
  unfold value
  split
  · rw [neg_one_mul, abs_neg, abs_of_nonneg nonneg]
  · rw [one_mul, abs_of_nonneg nonneg]

/-- The digits of a numeral, with the point between them. -/
def point (n : Numeral) : List Char :=
  n.whole ++ if n.fraction = [] then [] else '.' :: n.fraction

/-- A numeral as text. -/
def chars (n : Numeral) : List Char :=
  (if n.negative then ['-'] else []) ++ (n.point ++ n.exponent.elim [] Exponent.chars)

/-- A numeral that has digits in front of the point, and digits only where digits belong. -/
structure Formed (n : Numeral) : Prop where
  nonempty : n.whole ≠ []
  whole : ∀ c ∈ n.whole, isDigit c = true
  fraction : ∀ c ∈ n.fraction, isDigit c = true
  exponent : ∀ e, n.exponent = some e → e.Formed

/-- A numeral without superfluous digits.  No zero is in front of other digits, none is the last one
behind the point, and an exponent stands behind a single digit that is not zero and has no zero in
front unless it is of two digits. -/
structure Tidy (n : Numeral) : Prop where
  first : n.whole.head? = some '0' → n.whole = ['0']
  last : n.fraction.getLast? ≠ some '0'
  exponent : ∀ e, n.exponent = some e → n.whole.length = 1 ∧ n.whole ≠ ['0'] ∧
    2 ≤ e.digits.length ∧ (e.digits.head? = some '0' → e.digits.length = 2)

/-! ### Reading -/

/-- Reads what follows the digits of a numeral. -/
def behind? (negative : Bool) (whole fraction : List Char) : List Char → Option Numeral
  | [] => some ⟨negative, whole, fraction, none⟩
  | text => (Exponent.ofChars? text).map fun e => ⟨negative, whole, fraction, some e⟩

/-- Reads a numeral behind its sign. -/
def unsigned? (negative : Bool) (text : List Char) : Option Numeral :=
  let whole := text.takeWhile isDigit
  let fraction := fractionPart (text.dropWhile isDigit)
  if whole = [] then none else behind? negative whole fraction.1.tail fraction.2

/-- Reads a numeral. -/
def ofChars? : List Char → Option Numeral
  | '-' :: text => unsigned? true text
  | text => unsigned? false text

/-- Reads a text as a numeral. -/
def ofText? (text : String) : Option Numeral :=
  ofChars? text.toList

/-- A text at whose front no digit stands. -/
def Stops (text : List Char) : Prop :=
  ∀ c, text.head? = some c → isDigit c = false

theorem stops_nil : Stops [] := by
  intro c none
  cases none

theorem stops_cons {c : Char} (other : isDigit c = false) (text : List Char) :
    Stops (c :: text) := by
  intro d first
  cases first
  exact other

/-- Digits are cut off where they end. -/
theorem span_digits {digits text : List Char} (each : ∀ c ∈ digits, isDigit c = true)
    (stops : Stops text) :
    (digits ++ text).takeWhile isDigit = digits ∧ (digits ++ text).dropWhile isDigit = text := by
  rw [List.takeWhile_append_of_pos each, List.dropWhile_append_of_pos each]
  cases text with
  | nil => simp
  | cons c text => simp [stops c rfl]

/-- Digits behind a point are read up to what is no digit; without a point there is no fraction. -/
theorem fractionPart_digits {digits text : List Char} (each : ∀ c ∈ digits, isDigit c = true)
    (stops : Stops text) (noPoint : text.head? ≠ some '.') :
    fractionPart ((if digits = [] then [] else '.' :: digits) ++ text) =
      (if digits = [] then [] else '.' :: digits, text) := by
  cases digits with
  | nil =>
    cases text with
    | nil => rfl
    | cons c text =>
      unfold fractionPart
      split
      · rename_i same
        cases same
        exact absurd rfl noPoint
      · rfl
  | cons d digits =>
    have digit := each d List.mem_cons_self
    obtain ⟨taken, dropped⟩ := span_digits (fun c mem => each c (List.mem_cons_of_mem _ mem)) stops
    simp [fractionPart, digit, taken, dropped]

/-- A numeral is read back from its parts.  Each part ends where the next one begins, as neither a
point nor the letter of an exponent is a digit. -/
theorem unsigned?_point (formed : n.Formed) (negative : Bool) :
    unsigned? negative (n.point ++ n.exponent.elim [] Exponent.chars) =
      some { n with negative := negative } := by
  obtain ⟨negative', whole, fraction, exponent⟩ := n
  obtain ⟨nonempty, eachWhole, eachFraction, formedExponent⟩ := formed
  have ends : Stops (exponent.elim [] Exponent.chars) ∧
      (exponent.elim [] Exponent.chars).head? ≠ some '.' := by
    cases exponent with
    | none => exact ⟨stops_nil, nofun⟩
    | some e =>
      constructor
      · refine stops_cons ?_ _
        rcases (formedExponent e rfl).mark with mark | mark <;> rw [mark] <;> decide
      · rcases (formedExponent e rfl).mark with mark | mark <;> simp [Exponent.chars, mark]
  obtain ⟨stops, noPoint⟩ := ends
  have stops' : Stops ((if fraction = [] then [] else '.' :: fraction) ++
      exponent.elim [] Exponent.chars) := by
    split
    · exact stops
    · exact stops_cons (by decide) _
  obtain ⟨taken, dropped⟩ := span_digits eachWhole stops'
  unfold unsigned? point
  simp only [List.append_assoc, taken, dropped, if_neg nonempty,
    fractionPart_digits eachFraction stops noPoint]
  have tail : (if fraction = [] then [] else '.' :: fraction : List Char).tail = fraction := by
    split <;> simp_all
  rw [tail]
  cases exponent with
  | none => rfl
  | some e =>
    have read := Exponent.ofChars?_chars (formedExponent e rfl)
    simp only [Option.elim_some]
    rw [Exponent.chars] at read ⊢
    simp only [behind?, read, Option.map_some]

/-- What is written is read.  A sign in front is taken off first; without one the first character is
a digit, so nothing is mistaken for a sign. -/
theorem ofChars?_chars (formed : n.Formed) : ofChars? n.chars = some n := by
  obtain ⟨negative, whole, fraction, exponent⟩ := n
  have read := unsigned?_point formed negative
  unfold chars
  cases negative with
  | true => exact read
  | false =>
    obtain ⟨c, rest, first⟩ := List.exists_cons_of_ne_nil formed.nonempty
    simp only at first
    subst first
    have digit : isDigit c = true := formed.whole c List.mem_cons_self
    unfold ofChars?
    split
    · rename_i same
      injection same with same
      rw [same] at digit
      exact absurd digit (by decide)
    · exact read

theorem getLast?_digits_ne_point (front : List Char) {digits : List Char} (nonempty : digits ≠ [])
    (each : ∀ c ∈ digits, isDigit c = true) : (front ++ digits).getLast? ≠ some '.' := by
  rw [List.getLast?_append_of_ne_nil _ nonempty]
  intro last
  have digit := each _ (List.mem_of_getLast? last)
  exact absurd digit (by decide)

/-- A numeral ends in a digit, so never in a point.  The last part that is there has a digit at
least, be it the exponent, the fraction, or what is in front of the point. -/
theorem getLast?_chars_ne_point (formed : n.Formed) : n.chars.getLast? ≠ some '.' := by
  obtain ⟨negative, whole, fraction, exponent⟩ := n
  obtain ⟨nonempty, eachWhole, eachFraction, formedExponent⟩ := formed
  cases exponent with
  | some e =>
    obtain ⟨-, some, each⟩ := formedExponent e rfl
    simpa [chars, Exponent.chars] using getLast?_digits_ne_point
      ((if negative then ['-'] else []) ++ (point ⟨negative, whole, fraction, none⟩ ++
        [e.mark, if e.negative then '-' else '+'])) some each
  | none =>
    by_cases behind : fraction = []
    · simpa [chars, point, behind] using getLast?_digits_ne_point
        (if negative then ['-'] else []) nonempty eachWhole
    · simpa [chars, point, behind] using getLast?_digits_ne_point
        ((if negative then ['-'] else []) ++ (whole ++ ['.'])) behind eachFraction

end Numeral
end Arbor
