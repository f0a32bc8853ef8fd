import Arbor.Number.Layout
import Arbor.Token

/-!
# Token listings

One line for a token: its kind, its lexeme, and its value, with blanks between them.
-/

namespace Arbor

/-- How a token listing shows a constant. -/
def Constant.listing : Constant → String
  | nil => "None"
  | bool true => "True"
  | bool false => "False"
  | number x => Layout.listed.text x
  | text s => s

/-- The line of a token listing for a token. -/
def Token.listing (t : Token) : String :=
  t.kind.name ++ " " ++ t.lexeme ++ " " ++ t.literal.listing

end Arbor
