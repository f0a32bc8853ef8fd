import Arbor.Bindings
import Arbor.Json
import Arbor.Number.Decimal

/-!
# Reading JSON

The standard grammar, with `NaN`, `Infinity` and `-Infinity` as numbers.  Control characters are
not allowed inside strings, a repeated member replaces the earlier one, and nothing but blanks
may follow the value.  Each reader takes the text in front of it and returns what is left.
-/

namespace Arbor
namespace Json
namespace Reader

/-- The characters between parts of a value. -/
def isBlank (c : Char) : Bool :=
  c == ' ' || c == '\t' || c == '\n' || c == '\r'

/-- The text behind any blanks. -/
def skipBlanks (text : List Char) : List Char :=
  text.dropWhile isBlank

/-- The decimal digits. -/
def isDigit (c : Char) : Bool :=
  decide ('0' ≤ c ∧ c ≤ '9')

/-! ### Strings -/

/-- The value of a hexadecimal digit. -/
def hexDigit? (c : Char) : Option Nat :=
  if '0' ≤ c ∧ c ≤ '9' then some (c.toNat - '0'.toNat)
  else if 'a' ≤ c ∧ c ≤ 'f' then some (c.toNat - 'a'.toNat + 10)
  else if 'A' ≤ c ∧ c ≤ 'F' then some (c.toNat - 'A'.toNat + 10)
  else none

/-- Four hexadecimal digits. -/
def hex4? : List Char → Option (Nat × List Char)
  | a :: b :: c :: d :: rest => do
    let a ← hexDigit? a
    let b ← hexDigit? b
    let c ← hexDigit? c
    let d ← hexDigit? d
    some (((a * 16 + b) * 16 + c) * 16 + d, rest)
  | _ => none

/-- The character of a 16-bit unit; a high surrogate joins with a low one that follows, and a
surrogate on its own becomes the replacement character. -/
def joinUnits (unit : Nat) (rest : List Char) : Char × List Char :=
  if 0xD800 ≤ unit ∧ unit < 0xDC00 then
    match rest with
    | '\\' :: 'u' :: after =>
      match hex4? after with
      | some (low, beyond) =>
        if 0xDC00 ≤ low ∧ low < 0xE000 then
          (Char.ofNat (0x10000 + (unit - 0xD800) * 0x400 + (low - 0xDC00)), beyond)
        else ('\uFFFD', rest)
      | none => ('\uFFFD', rest)
    | _ => ('\uFFFD', rest)
  else if 0xDC00 ≤ unit ∧ unit < 0xE000 then ('\uFFFD', rest)
  else (Char.ofNat unit, rest)

/-- What an escape stands for, behind its backslash. -/
def escape? : List Char → Option (Char × List Char)
  | '"' :: rest => some ('"', rest)
  | '\\' :: rest => some ('\\', rest)
  | '/' :: rest => some ('/', rest)
  | 'b' :: rest => some ('\x08', rest)
  | 'f' :: rest => some ('\x0c', rest)
  | 'n' :: rest => some ('\n', rest)
  | 'r' :: rest => some ('\r', rest)
  | 't' :: rest => some ('\t', rest)
  | 'u' :: rest => do
    let (unit, rest) ← hex4? rest
    some (joinUnits unit rest)
  | _ => none

/-- A string behind its opening quote; `before` holds its characters in reverse. -/
def string? : Nat → List Char → List Char → Option (String × List Char)
  | 0, _, _ => none
  | _ + 1, [], _ => none
  | fuel + 1, c :: rest, before =>
    if c = '"' then some (String.ofList before.reverse, rest)
    else if c = '\\' then
      match escape? rest with
      | some (char, rest) => string? fuel rest (char :: before)
      | none => none
    else if c.toNat < 0x20 then none
    else string? fuel rest (c :: before)

/-! ### Numbers -/

/-- The exponent of a number, if a well-formed one follows. -/
def exponent? (text : List Char) : Option (Int × List Char) :=
  match text with
  | e :: rest =>
    if e = 'e' ∨ e = 'E' then
      let (negative, rest) :=
        match rest with
        | '-' :: r => (true, r)
        | '+' :: r => (false, r)
        | r => (false, r)
      let digits := rest.takeWhile isDigit
      if digits.isEmpty then none
      else
        let value : Int := Decimal.digitsValue digits
        some (if negative then -value else value, rest.dropWhile isDigit)
    else none
  | [] => none

/-- The fraction digits of a number, if a point and at least one digit follow. -/
def fraction? : List Char → Option (List Char × List Char)
  | '.' :: rest =>
    let digits := rest.takeWhile isDigit
    if digits.isEmpty then none else some (digits, rest.dropWhile isDigit)
  | _ => none

/-- The whole part of a number: a zero alone, or digits that do not begin with one. -/
def whole? : List Char → Option (List Char × List Char)
  | '0' :: rest => some (['0'], rest)
  | text =>
    let digits := text.takeWhile isDigit
    if digits.isEmpty then none else some (digits, text.dropWhile isDigit)

/-- A number behind its sign. -/
def number? (negative : Bool) (text : List Char) : Option (Json × List Char) := do
  let (whole, rest) ← whole? text
  let (fraction, afterFraction) := (fraction? rest).getD ([], rest)
  let (exponent, after) := (exponent? afterFraction).getD (0, afterFraction)
  if fraction.isEmpty ∧ (exponent? afterFraction).isNone then
    let value : Int := Decimal.digitsValue whole
    some (.int (if negative then -value else value), after)
  else
    let decimal := Decimal.ofDigits whole fraction
    let value := ({ decimal with exponent := decimal.exponent + exponent } : Decimal).toFloat
    some (.float (if negative then -value else value), after)

/-! ### Values -/

/-- The rest of a text behind a given beginning. -/
def after? : List Char → List Char → Option (List Char)
  | [], text => some text
  | c :: cs, d :: text => if c = d then after? cs text else none
  | _ :: _, [] => none

/-- Positive infinity. -/
def infinity : Float := Float.ofBits (UInt64.ofNat Binary64.infinityPattern)

/-- The values that are written as words. -/
def words : List (List Char × Json) :=
  [("null".toList, .null), ("true".toList, .bool true), ("false".toList, .bool false),
    ("NaN".toList, .float (infinity - infinity)), ("Infinity".toList, .float infinity),
    ("-Infinity".toList, .float (-infinity))]

/-- A value that is written as a word. -/
def word? (text : List Char) : Option (Json × List Char) :=
  words.findSome? fun (word, value) => (after? word text).map fun rest => (value, rest)

mutual

/-- A value, in front of which blanks have been skipped. -/
def value? : Nat → List Char → Option (Json × List Char)
  | 0, _ => none
  | fuel + 1, text =>
    match text with
    | '"' :: rest => (string? (rest.length + 1) rest []).map fun (s, rest) => (.str s, rest)
    | '[' :: rest =>
      match skipBlanks rest with
      | ']' :: rest => some (.arr [], rest)
      | rest => elements? fuel rest []
    | '\x7b' :: rest =>
      match skipBlanks rest with
      | '\x7d' :: rest => some (.obj [], rest)
      | rest => members? fuel rest []
    | _ =>
      match word? text with
      | some found => some found
      | none =>
        match text with
        | '-' :: rest => number? true rest
        | _ => number? false text

/-- The elements of an array up to its closing bracket; at least one. -/
def elements? : Nat → List Char → List Json → Option (Json × List Char)
  | 0, _, _ => none
  | fuel + 1, text, before =>
    match value? fuel text with
    | none => none
    | some (element, rest) =>
      match skipBlanks rest with
      | ',' :: rest => elements? fuel (skipBlanks rest) (element :: before)
      | ']' :: rest => some (.arr (element :: before).reverse, rest)
      | _ => none

/-- The members of an object up to its closing brace; at least one. -/
def members? : Nat → List Char → List (String × Json) → Option (Json × List Char)
  | 0, _, _ => none
  | fuel + 1, text, before =>
    match text with
    | '"' :: rest =>
      match string? (rest.length + 1) rest [] with
      | none => none
      | some (key, rest) =>
        match skipBlanks rest with
        | ':' :: rest =>
          match value? fuel (skipBlanks rest) with
          | none => none
          | some (value, rest) =>
            let members := Bindings.replace key value before
            match skipBlanks rest with
            | ',' :: rest => members? fuel (skipBlanks rest) members
            | '\x7d' :: rest => some (.obj members, rest)
            | _ => none
        | _ => none
    | _ => none

end

end Reader

/-- The value a text denotes, if it is well-formed. -/
def read? (text : String) : Option Json :=
  let chars := Reader.skipBlanks text.toList
  match Reader.value? (chars.length + 1) chars with
  | some (value, rest) => if (Reader.skipBlanks rest).isEmpty then some value else none
  | none => none

end Json
end Arbor
