/-!
# Written integers

An integer is written as an optional sign and decimal digits, between which single underscores
may stand, with any space around it.  Digits of every script count, and space is what the
character standard calls so.  A text with too many digits denotes nothing.

## Main definitions

* `Integer.digitZeros`: where the ten digits of each script begin.
* `Integer.read?`: the integer a text denotes.
-/

namespace Arbor
namespace Integer

/-- The code points of the digits zero; the other nine digits follow each of them. -/
def digitZeros : List Nat :=
  [0x30, 0x660, 0x6F0, 0x7C0, 0x966, 0x9E6, 0xA66, 0xAE6, 0xB66, 0xBE6, 0xC66, 0xCE6, 0xD66,
    0xDE6, 0xE50, 0xED0, 0xF20, 0x1040, 0x1090, 0x17E0, 0x1810, 0x1946, 0x19D0, 0x1A80, 0x1A90,
    0x1B50, 0x1BB0, 0x1C40, 0x1C50, 0xA620, 0xA8D0, 0xA900, 0xA9D0, 0xA9F0, 0xAA50, 0xABF0,
    0xFF10, 0x104A0, 0x10D30, 0x11066, 0x110F0, 0x11136, 0x111D0, 0x112F0, 0x11450, 0x114D0,
    0x11650, 0x116C0, 0x11730, 0x118E0, 0x11950, 0x11C50, 0x11D50, 0x11DA0, 0x16A60, 0x16AC0,
    0x16B50, 0x1D7CE, 0x1D7D8, 0x1D7E2, 0x1D7EC, 0x1D7F6, 0x1E140, 0x1E2F0, 0x1E950, 0x1FBF0]

/-- The value of a decimal digit of any script. -/
def digit? (c : Char) : Option Nat :=
  digitZeros.findSome? fun start =>
    if start ≤ c.toNat ∧ c.toNat < start + 10 then some (c.toNat - start) else none

/-- The space characters of ASCII. -/
def isPlainSpace (c : Char) : Bool :=
  (9 ≤ c.toNat && c.toNat ≤ 13) || c.toNat == 32

/-- The space characters of the character standard, with the four information separators. -/
def isWideSpace (c : Char) : Bool :=
  isPlainSpace c || (28 ≤ c.toNat && c.toNat ≤ 31) || c.toNat == 0x85 ||
    c.toNat == 0xA0 || c.toNat == 0x1680 || (0x2000 ≤ c.toNat && c.toNat ≤ 0x200A) ||
    c.toNat == 0x2028 || c.toNat == 0x2029 || c.toNat == 0x202F || c.toNat == 0x205F ||
    c.toNat == 0x3000

/-- The text without the space around it; a text in ASCII alone knows only the plain space. -/
def trim (text : List Char) : List Char :=
  let isSpace := if text.all fun c => decide (c.toNat < 128) then isPlainSpace else isWideSpace
  ((text.dropWhile isSpace).reverse.dropWhile isSpace).reverse

/-- The largest number of digits that is read. -/
def digitLimit : Nat := 4300

/-- The values of digits, behind each of which a single underscore may stand if another digit
follows; those in `before` are in reverse. -/
def digits? : List Char → List Nat → Option (List Nat)
  | [], before => some before.reverse
  | [c], before => (digit? c).map fun d => (d :: before).reverse
  | c :: '_' :: d :: rest, before =>
    match digit? c with
    | some value => digits? (d :: rest) (value :: before)
    | none => none
  | c :: rest, before =>
    match digit? c with
    | some value => digits? rest (value :: before)
    | none => none

/-- The natural that digits denote, if there is at least one and not too many. -/
def natural? (text : List Char) : Option Nat :=
  match digits? text [] with
  | some digits =>
    if digits.isEmpty ∨ digitLimit < digits.length then none
    else some (digits.foldl (fun total d => 10 * total + d) 0)
  | none => none

/-- The integer a text denotes. -/
def read? (text : List Char) : Option Int :=
  match trim text with
  | '-' :: rest => (natural? rest).map fun n => -(n : Int)
  | '+' :: rest => (natural? rest).map fun n => (n : Int)
  | rest => (natural? rest).map fun n => (n : Int)

end Integer
end Arbor
