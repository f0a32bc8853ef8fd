import Arbor.Json
import Arbor.Number.Layout

/-!
# Writing JSON

Two layouts: on one line, and indented by two blanks with one element or member on each line.
Quotes, backslashes and control characters are escaped, all other characters stand as they are.
-/

namespace Arbor
namespace Json

/-- How a character is written inside a string. -/
def escapeChar (c : Char) : List Char :=
  if c = '"' then ['\\', '"']
  else if c = '\\' then ['\\', '\\']
  else if c = '\n' then ['\\', 'n']
  else if c = '\r' then ['\\', 'r']
  else if c = '\t' then ['\\', 't']
  else if c = '\x08' then ['\\', 'b']
  else if c = '\x0c' then ['\\', 'f']
  else if c.toNat < 0x20 then
    let digits := Nat.toDigits 16 c.toNat
    '\\' :: 'u' :: (List.replicate (4 - digits.length) '0' ++ digits)
  else [c]

/-- A string between quotes. -/
def quote (s : String) : String :=
  "\"" ++ String.ofList (s.toList.flatMap escapeChar) ++ "\""

/-- A value that has no parts. -/
def scalarText : Json → String
  | null => "null"
  | bool true => "true"
  | bool false => "false"
  | int n => toString n
  | float x => Layout.stored.text x
  | str s => quote s
  | arr _ => "[]"
  | obj _ => "\x7b\x7d"

mutual

/-- Writes a value on one line behind `done`. -/
def writeCompact (done : String) : Json → String
  | arr elements => writeElements (done ++ "[") "" elements ++ "]"
  | obj members => writeMembers (done ++ "\x7b") "" members ++ "\x7d"
  | other => done ++ scalarText other

/-- Writes elements, the first behind `separator` and the others behind commas. -/
def writeElements (done separator : String) : List Json → String
  | [] => done
  | element :: rest => writeElements (writeCompact (done ++ separator) element) "," rest

/-- Writes members, the first behind `separator` and the others behind commas. -/
def writeMembers (done separator : String) : List (String × Json) → String
  | [] => done
  | (key, value) :: rest =>
    writeMembers (writeCompact (done ++ separator ++ quote key ++ ":") value) "," rest

end

/-- The text of a value on one line. -/
def compact (value : Json) : String :=
  writeCompact "" value

/-- A new line with the indentation of a depth. -/
def newLine (depth : Nat) : String :=
  "\n" ++ String.ofList (List.replicate (2 * depth) ' ')

mutual

/-- Writes an indented value behind `done`; `depth` counts the containers around it. -/
def writeIndented (depth : Nat) (done : String) : Json → String
  | arr (element :: rest) =>
    indentElements (depth + 1)
      (writeIndented (depth + 1) (done ++ "[" ++ newLine (depth + 1)) element)
      rest ++ newLine depth ++ "]"
  | obj ((key, value) :: rest) =>
    indentMembers (depth + 1)
      (writeIndented (depth + 1) (done ++ "\x7b" ++ newLine (depth + 1) ++ quote key ++ ": ") value)
      rest ++ newLine depth ++ "\x7d"
  | other => done ++ scalarText other

/-- Writes the elements behind the first one. -/
def indentElements (depth : Nat) (done : String) : List Json → String
  | [] => done
  | element :: rest =>
    indentElements depth (writeIndented depth (done ++ "," ++ newLine depth) element) rest

/-- Writes the members behind the first one. -/
def indentMembers (depth : Nat) (done : String) : List (String × Json) → String
  | [] => done
  | (key, value) :: rest =>
    indentMembers depth
      (writeIndented depth (done ++ "," ++ newLine depth ++ quote key ++ ": ") value) rest

end

/-- The text of a value, indented. -/
def indented (value : Json) : String :=
  writeIndented 0 "" value

end Json
end Arbor
