import Arbor.Diagnostic
import Arbor.Token.Piece

/-!
# Scanning

A scan goes through the pieces of a text with a line number in hand.  A piece is located on the
line on which it ends, so a string over several lines counts where it closes.  Whatever is wrong
with the characters is reported and the scan goes on.
-/

namespace Arbor

/-- What has been read of a text: its tokens, the reports on it, and the line reached. -/
structure Scan where
  tokens : Array Token := #[]
  reports : Array Diagnostic := #[]
  line : Int := 1

namespace Scan

/-- Accounts for the next piece. -/
def add (s : Scan) (piece : Piece) : Scan :=
  let line := s.line + (piece.chars.count '\n' : Int)
  match piece.role with
  | .token kind literal =>
    let token : Token := ⟨kind, String.ofList piece.chars, literal, line⟩
    { s with tokens := s.tokens.push token, line := line }
  | .gap => { s with line := line }
  | .unexpected =>
    { s with reports := s.reports.push (.lexical line .unexpectedCharacter), line := line }
  | .unterminated =>
    { s with reports := s.reports.push (.lexical line .unterminatedString), line := line }

/-- The scan of a whole text. -/
def ofText (text : String) : Scan :=
  (Piece.split text.toList).foldl add {}

/-- The token behind the last one. -/
def ending (s : Scan) : Token :=
  .ending s.line

/-- How many tokens there are, the ending included. -/
def size (s : Scan) : Nat :=
  s.tokens.size + 1

end Scan
end Arbor
