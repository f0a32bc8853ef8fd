import Arbor.Number.Binary64

/-!
# Decimals

A decimal is `coefficient · 10 ^ exponent`.  Reading one rounds that exact value to the
nearest double; writing a double takes the fewest digits that read back to it, and among
decimals of that many digits the one nearest to the double.

## Main definitions

* `Decimal.toFloat`: the double nearest to a decimal.
* `Decimal.shortest`: the decimal with the fewest digits that reads back.
-/

namespace Arbor

/-- The number `coefficient · 10 ^ exponent`. -/
structure Decimal where
  coefficient : Nat
  exponent : Int
deriving DecidableEq, Repr

namespace Decimal

/-- Numerator of the value as a fraction of naturals. -/
def numerator (d : Decimal) : Nat :=
  d.coefficient * Nat.pow 10 d.exponent.toNat

/-- Denominator of the value as a fraction of naturals; never zero. -/
def denominator (d : Decimal) : Nat :=
  Nat.pow 10 (-d.exponent).toNat

/-- How many decimal digits a natural has; zero has one. -/
def digitCount (n : Nat) : Nat :=
  (Nat.toDigits 10 n).length

/-- The exponent of the leading digit. -/
def leadingExponent (d : Decimal) : Int :=
  d.exponent + digitCount d.coefficient - 1

/-- Beyond this leading exponent every decimal rounds to infinity, and below its negative to
zero; such values are never expanded. -/
def exponentBound : Int := 400

/-- The unsigned pattern of the double nearest to the decimal. -/
def toPattern (d : Decimal) : Nat :=
  if d.coefficient = 0 ∨ d.leadingExponent < -exponentBound then 0
  else if exponentBound < d.leadingExponent then Binary64.infinityPattern
  else Binary64.ofFraction d.numerator d.denominator

/-- The double nearest to the decimal. -/
def toFloat (d : Decimal) : Float :=
  Float.ofBits (UInt64.ofNat d.toPattern)

/-- The value of a run of decimal digits. -/
def digitsValue (digits : List Char) : Nat :=
  digits.foldl (fun total c => 10 * total + (c.toNat - '0'.toNat)) 0

/-- The decimal written as whole digits, a point and fraction digits. -/
def ofDigits (whole fraction : List Char) : Decimal :=
  ⟨digitsValue (whole ++ fraction), -(fraction.length : Int)⟩

/-- Drops trailing zeros of the coefficient, at most `fuel` of them. -/
def trimZeros : Nat → Decimal → Decimal
  | 0, d => d
  | fuel + 1, d =>
    if d.coefficient ≠ 0 ∧ d.coefficient % 10 = 0 then
      trimZeros fuel ⟨d.coefficient / 10, d.exponent + 1⟩
    else d

/-- The same number without trailing zeros in its coefficient. -/
def normalize (d : Decimal) : Decimal :=
  trimZeros (digitCount d.coefficient) d

/-! ### The fewest digits that read back -/

/-- The least `k ≤ fuel` with `den ≤ num · 10 ^ k`, counted from `k`. -/
def leadingZeros (num den : Nat) : Nat → Nat → Nat
  | 0, k => k
  | fuel + 1, k => if den ≤ num * Nat.pow 10 k then k else leadingZeros num den fuel (k + 1)

/-- The decimal exponent of the leading digit of `num / den`, for a positive fraction. -/
def orderOf (num den : Nat) : Int :=
  if den ≤ num then digitCount (num / den) - 1
  else -(leadingZeros num den 400 1 : Int)

/-- `num / den` in units of `10 ^ exponent`, rounded down. -/
def floorAt (num den : Nat) (exponent : Int) : Nat :=
  (num * Nat.pow 10 (-exponent).toNat) / (den * Nat.pow 10 exponent.toNat)

/-- Twice the distance between `num / den` and its neighbours `low` and `low + 1` on the grid
of `10 ^ exponent`, compared: whether the upper one is nearer, or as near and even. -/
def prefersUpper (num den low : Nat) (exponent : Int) : Bool :=
  let doubled := 2 * (num * Nat.pow 10 (-exponent).toNat)
  let middle := (2 * low + 1) * (den * Nat.pow 10 exponent.toNat)
  decide (middle < doubled ∨ (middle = doubled ∧ low % 2 = 1))

/-- The neighbour of `num / den` on the grid of `10 ^ exponent` that reads back to `pattern`,
the nearer one if both do. -/
def onGrid? (pattern num den : Nat) (exponent : Int) : Option Decimal :=
  let low := floorAt num den exponent
  let lower : Decimal := ⟨low, exponent⟩
  let upper : Decimal := ⟨low + 1, exponent⟩
  let (first, second) :=
    if prefersUpper num den low exponent then (upper, lower) else (lower, upper)
  if first.toPattern = pattern then some first
  else if second.toPattern = pattern then some second
  else none

/-- Tries grids of growing precision, `digits` digits first, at most `fuel` of them. -/
def searchGrids (pattern num den : Nat) (order : Int) : Nat → Nat → Option Decimal
  | 0, _ => none
  | fuel + 1, digits =>
    match onGrid? pattern num den (order - digits + 1) with
    | some d => some d
    | none => searchGrids pattern num den order fuel (digits + 1)

/-- Seventeen digits tell every two doubles apart. -/
def maxDigits : Nat := 17

/-- The decimal with the fewest digits that reads back to the magnitude of a finite non-zero
pattern, without trailing zeros. -/
def shortest (pattern : Nat) : Decimal :=
  let unsigned := Binary64.unsigned pattern
  let value := Binary64.magnitude unsigned
  let order := orderOf value.numerator value.denominator
  let found := searchGrids unsigned value.numerator value.denominator order maxDigits 1
  normalize (found.getD
    ⟨floorAt value.numerator value.denominator (order - maxDigits + 1), order - maxDigits + 1⟩)

end Decimal
end Arbor
