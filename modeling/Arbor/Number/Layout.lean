import Arbor.Number.Decimal

/-!
# Number layouts

The digits of a number are fixed by `Decimal.shortest`; a layout decides how they are set:
where positional writing ends, how an exponent is marked, and what stands for the values
that have no digits.  The language prints numbers with `Layout.printed`; token listings and
stored trees use the two layouts that keep a fraction on whole numbers.
-/

namespace Arbor

/-- How the digits of a number are set as text. -/
structure Layout where
  /-- Leading exponents from here on are written with an exponent. -/
  exponentFrom : Int
  /-- Leading exponents below this are written with an exponent. -/
  exponentBelow : Int
  /-- The mark in front of an exponent. -/
  mark : Char
  /-- What follows a whole number written positionally. -/
  wholeSuffix : List Char
  /-- The text of positive infinity. -/
  infinity : List Char
  /-- The text of a value that is not a number. -/
  notANumber : List Char

namespace Layout

/-- Numbers printed by a program: `12`, `0.5`, `1E+15`, `1.5E-07`. -/
def printed : Layout where
  exponentFrom := 15
  exponentBelow := -4
  mark := 'E'
  wholeSuffix := []
  infinity := ['I', 'n', 'f', 'i', 'n', 'i', 't', 'y']
  notANumber := ['N', 'a', 'N']

/-- Numbers in token listings: `12.0`, `0.5`, `1e+16`, `1.5e-07`, `inf`. -/
def listed : Layout where
  exponentFrom := 16
  exponentBelow := -4
  mark := 'e'
  wholeSuffix := ['.', '0']
  infinity := ['i', 'n', 'f']
  notANumber := ['n', 'a', 'n']

/-- Numbers in stored trees: as listed, with `Infinity` and `NaN` spelled out. -/
def stored : Layout :=
  { listed with infinity := printed.infinity, notANumber := printed.notANumber }

/-- An exponent has a sign and at least two digits. -/
def exponentText (exponent : Int) : List Char :=
  let digits := Nat.toDigits 10 exponent.natAbs
  (if 0 ≤ exponent then '+' else '-') :: (List.replicate (2 - digits.length) '0' ++ digits)

/-- One digit, then a point and the others if there are any. -/
def mantissaText : List Char → List Char
  | [] => []
  | [d] => [d]
  | d :: ds => d :: '.' :: ds

/-- Digits set positionally, where `order` is the exponent of the first one. -/
def positionalText (wholeSuffix digits : List Char) (order : Int) : List Char :=
  if order < 0 then
    '0' :: '.' :: (List.replicate (-order - 1).toNat '0' ++ digits)
  else
    let whole := order.toNat + 1
    if digits.length ≤ whole then
      digits ++ List.replicate (whole - digits.length) '0' ++ wholeSuffix
    else
      digits.take whole ++ '.' :: digits.drop whole

/-- The text of a decimal without trailing zeros. -/
def decimalText (l : Layout) (d : Decimal) : List Char :=
  let digits := Nat.toDigits 10 d.coefficient
  let order := d.leadingExponent
  if l.exponentFrom ≤ order ∨ order < l.exponentBelow then
    mantissaText digits ++ l.mark :: exponentText order
  else
    positionalText l.wholeSuffix digits order

/-- The text of the double with the given bit pattern. -/
def patternText (l : Layout) (pattern : Nat) : List Char :=
  let unsigned := Binary64.unsigned pattern
  let sign := if Binary64.isNegative pattern then ['-'] else []
  if Binary64.infinityPattern < unsigned then l.notANumber
  else if unsigned = Binary64.infinityPattern then sign ++ l.infinity
  else if unsigned = 0 then sign ++ '0' :: l.wholeSuffix
  else sign ++ l.decimalText (Decimal.shortest unsigned)

/-- The text of a number. -/
def text (l : Layout) (x : Float) : String :=
  String.ofList (l.patternText x.toBits.toNat)

end Layout
end Arbor
