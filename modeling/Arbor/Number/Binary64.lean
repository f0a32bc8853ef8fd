/-!
# Doubles as exact fractions

Numbers of the language are IEEE binary64 values.  Their text is read and
written by exact integer arithmetic: a finite double is `significand · 2 ^ exponent`,
and a fraction of naturals is rounded to the nearest double with ties to the even
significand.  Nothing here depends on the host's decimal conversions, so that
"reads back" is a statement about `Nat`.

## Main definitions

* `Binary64.Magnitude`: the absolute value of a finite double.
* `Binary64.magnitude`: the magnitude coded in the low 63 bits of a pattern.
* `Binary64.ofFraction`: the pattern nearest to a fraction of naturals.
-/

namespace Arbor
namespace Binary64

/-- The absolute value `significand · 2 ^ exponent` of a finite double. -/
structure Magnitude where
  significand : Nat
  exponent : Int
deriving DecidableEq, Repr

namespace Magnitude

/-- Numerator of the value as a fraction of naturals. -/
def numerator (m : Magnitude) : Nat :=
  m.significand * Nat.pow 2 m.exponent.toNat

/-- Denominator of the value as a fraction of naturals; never zero. -/
def denominator (m : Magnitude) : Nat :=
  Nat.pow 2 (-m.exponent).toNat

theorem denominator_pos (m : Magnitude) : 0 < m.denominator :=
  Nat.pow_pos (by decide)

end Magnitude

/-- Weight of the lowest bit of the exponent field. -/
def fieldUnit : Nat := Nat.pow 2 52

/-- Exponent of the last bit of the smallest doubles. -/
def leastExponent : Int := -1074

/-- The pattern of positive infinity. -/
def infinityPattern : Nat := 2047 * fieldUnit

/-- The pattern's sign bit. -/
def isNegative (pattern : Nat) : Bool :=
  decide (Nat.pow 2 63 ≤ pattern)

/-- The pattern without its sign bit. -/
def unsigned (pattern : Nat) : Nat :=
  pattern % Nat.pow 2 63

/-- The magnitude coded by a finite pattern.  Patterns with an empty exponent field
have no implicit leading bit. -/
def magnitude (pattern : Nat) : Magnitude :=
  let field := unsigned pattern / fieldUnit
  let fraction := unsigned pattern % fieldUnit
  if field = 0 then ⟨fraction, leastExponent⟩
  else ⟨fieldUnit + fraction, (field : Int) - 1 + leastExponent⟩

/-- `num / den` rounded to a natural, a half going to the even neighbour. -/
def roundHalfEven (num den : Nat) : Nat :=
  let quotient := num / den
  let rest := num % den
  if den < 2 * rest ∨ (den = 2 * rest ∧ quotient % 2 = 1) then quotient + 1 else quotient

/-- `num / den / 2 ^ exponent`, as a numerator and a denominator. -/
def scale (num den : Nat) (exponent : Int) : Nat × Nat :=
  (num * Nat.pow 2 (-exponent).toNat, den * Nat.pow 2 exponent.toNat)

/-- An exponent whose scaled quotient keeps 53 or 54 bits, as far as the format goes. -/
def coarseExponent (num den : Nat) : Int :=
  max leastExponent ((num.log2 : Int) - (den.log2 : Int) - 53)

/-- The exponent of the last bit that a double near `num / den` keeps. -/
def lastExponent (num den : Nat) : Int :=
  let coarse := coarseExponent num den
  let (n, d) := scale num den coarse
  if n / d < 2 * fieldUnit then coarse else coarse + 1

/-- The unsigned pattern nearest to `num / den`, ties to even, `infinityPattern` beyond the
largest double.  A significand that rounds up to the next power of two carries into the
exponent field by plain addition. -/
def ofFraction (num den : Nat) : Nat :=
  if num = 0 then 0
  else
    let exponent := lastExponent num den
    let (n, d) := scale num den exponent
    min infinityPattern ((exponent - leastExponent).toNat * fieldUnit + roundHalfEven n d)

end Binary64
end Arbor
