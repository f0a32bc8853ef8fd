import Arbor.Number.Decimal
import Arbor.Token

/-!
# Splitting a text into pieces

A program text is cut from left to right into pieces: tokens, gaps between them (blanks and
comments), characters that belong nowhere, and at most one string that the text ends in.
Each piece is as long as its form allows, and the pieces put together are the text again.

## Main definitions

* `Piece.front`: the piece at the front of a non-empty text, and what is left behind it.
* `Piece.split`: all pieces of a text.

## Main statements

* `Piece.front_chars_append`: a piece and what is left behind it are the text.
* `Piece.flatMap_chars_split`: so are all pieces together.
-/

namespace Arbor

/-- What a piece of text is. -/
inductive Piece.Role where
  | token (kind : Token.Kind) (literal : Constant)
  | gap
  | unexpected
  | unterminated

/-- A piece of text. -/
structure Piece where
  role : Piece.Role
  chars : List Char

namespace Piece

/-! ### Character classes -/

/-- The decimal digits. -/
def isDigit (c : Char) : Bool :=
  decide ('0' ≤ c ∧ c ≤ '9')

/-- The characters that may begin a word. -/
def isLetter (c : Char) : Bool :=
  decide (('a' ≤ c ∧ c ≤ 'z') ∨ ('A' ≤ c ∧ c ≤ 'Z') ∨ c = '_')

/-- The characters that may continue a word. -/
def isWordChar (c : Char) : Bool :=
  isLetter c || isDigit c

/-- The characters that only separate. -/
def isBlank (c : Char) : Bool :=
  c == ' ' || c == '\r' || c == '\t' || c == '\n'

/-- The kind of a token that is always one character. -/
def single? : Char → Option Token.Kind
  | '(' => some .leftParen
  | ')' => some .rightParen
  | '\x7b' => some .leftBrace
  | '\x7d' => some .rightBrace
  | ',' => some .comma
  | '.' => some .dot
  | '-' => some .minus
  | '+' => some .plus
  | ';' => some .semicolon
  | '*' => some .star
  | _ => none

/-- The kinds of an operator alone and followed by an equals sign. -/
def equalable? : Char → Option (Token.Kind × Token.Kind)
  | '!' => some (.bang, .bangEqual)
  | '=' => some (.equal, .equalEqual)
  | '<' => some (.less, .lessEqual)
  | '>' => some (.greater, .greaterEqual)
  | _ => none

/-! ### The piece at the front -/

/-- A token without a value. -/
def plain (kind : Token.Kind) (chars : List Char) : Piece :=
  ⟨.token kind .nil, chars⟩

/-- A point with digits behind it, if at least one follows, and what is left behind them. -/
def fractionPart (text : List Char) : List Char × List Char :=
  match text with
  | '.' :: d :: after =>
    if isDigit d then ('.' :: d :: after.takeWhile isDigit, after.dropWhile isDigit) else ([], text)
  | _ => ([], text)

/-- A number: digits, and a point with further digits if at least one follows it. -/
def number (first : Char) (text : List Char) : Piece × List Char :=
  let whole := first :: text.takeWhile isDigit
  let fraction := fractionPart (text.dropWhile isDigit)
  (⟨.token .number (.number (Decimal.ofDigits whole fraction.1.tail).toFloat),
    whole ++ fraction.1⟩, fraction.2)

/-- A word: a keyword or an identifier. -/
def word (first : Char) (text : List Char) : Piece × List Char :=
  let chars := first :: text.takeWhile isWordChar
  (plain (.ofWord (String.ofList chars)) chars, text.dropWhile isWordChar)

/-- A string up to the closing quote; it may span lines and knows no escapes. -/
def quoted (first : Char) (text : List Char) : Piece × List Char :=
  let body := text.takeWhile (· != '"')
  match text.dropWhile (· != '"') with
  | [] => (⟨.unterminated, first :: body⟩, [])
  | quote :: rest =>
    (⟨.token .string (.text (String.ofList body)), first :: (body ++ [quote])⟩, rest)

/-- A slash, or a comment that runs up to the end of its line. -/
def slashed (first : Char) (text : List Char) : Piece × List Char :=
  match text with
  | '/' :: _ => (⟨.gap, first :: text.takeWhile (· != '\n')⟩, text.dropWhile (· != '\n'))
  | _ => (plain .slash [first], text)

/-- The piece that begins with `first` when `text` follows, and what is left of `text`. -/
def front (first : Char) (text : List Char) : Piece × List Char :=
  match single? first, equalable? first with
  | some kind, _ => (plain kind [first], text)
  | none, some (alone, withEqual) =>
    match text with
    | '=' :: rest => (plain withEqual [first, '='], rest)
    | _ => (plain alone [first], text)
  | none, none =>
    if first = '/' then slashed first text
    else if isBlank first then (⟨.gap, [first]⟩, text)
    else if first = '"' then quoted first text
    else if isDigit first then number first text
    else if isLetter first then word first text
    else (⟨.unexpected, [first]⟩, text)

/-! ### Nothing is lost in front -/

theorem fractionPart_append (text : List Char) :
    (fractionPart text).1 ++ (fractionPart text).2 = text := by
  unfold fractionPart
  split
  · split <;> simp
  · rfl

theorem number_chars_append (first : Char) (text : List Char) :
    (number first text).1.chars ++ (number first text).2 = first :: text := by
  simp [number, fractionPart_append]

theorem word_chars_append (first : Char) (text : List Char) :
    (word first text).1.chars ++ (word first text).2 = first :: text := by
  simp [word, plain]

theorem quoted_chars_append (first : Char) (text : List Char) :
    (quoted first text).1.chars ++ (quoted first text).2 = first :: text := by
  have whole := List.takeWhile_append_dropWhile (p := (· != '"')) (l := text)
  unfold quoted
  split
  · rename_i rest
    rw [rest] at whole
    simpa using whole
  · rename_i quote after rest
    rw [rest] at whole
    simpa using whole

theorem slashed_chars_append (first : Char) (text : List Char) :
    (slashed first text).1.chars ++ (slashed first text).2 = first :: text := by
  unfold slashed
  split <;> simp [plain]

/-- Nothing of a text is lost when a piece is cut off: what the piece holds and what is left of the
text are the text again. -/
theorem front_chars_append (first : Char) (text : List Char) :
    (front first text).1.chars ++ (front first text).2 = first :: text := by
  unfold front
  split
  · simp [plain]
  · split <;> simp [plain]
  · split
    · exact slashed_chars_append first text
    split
    · rfl
    split
    · exact quoted_chars_append first text
    split
    · exact number_chars_append first text
    split
    · exact word_chars_append first text
    · rfl

/-- A piece has at least one character. -/
theorem front_chars_ne_nil (first : Char) (text : List Char) :
    (front first text).1.chars ≠ [] := by
  unfold front
  split
  · simp [plain]
  · split <;> simp [plain]
  · unfold slashed quoted number word
    repeat' split
    all_goals simp [plain]

/-- What is left behind a piece is not longer than what followed its first character. -/
theorem length_front_le (first : Char) (text : List Char) :
    (front first text).2.length ≤ text.length := by
  have whole := congrArg List.length (front_chars_append first text)
  have some := List.length_pos_iff.mpr (front_chars_ne_nil first text)
  simp only [List.length_append, List.length_cons] at whole
  omega

/-! ### All pieces -/

/-- Adds the pieces of `text` in front of those in `before`, which are in reverse order; at
most `fuel` of them. -/
def splitFrom : Nat → List Char → List Piece → List Piece
  | 0, _, before => before.reverse
  | _ + 1, [], before => before.reverse
  | fuel + 1, first :: text, before =>
    splitFrom fuel (front first text).2 ((front first text).1 :: before)

/-- The pieces of a text; there are no more of them than characters. -/
def split (text : List Char) : List Piece :=
  splitFrom text.length text []

/-- With enough fuel the pieces hold the whole text. -/
theorem flatMap_chars_splitFrom (fuel : Nat) (text : List Char) (before : List Piece)
    (enough : text.length ≤ fuel) :
    (splitFrom fuel text before).flatMap chars = before.reverse.flatMap chars ++ text := by
  induction fuel generalizing text before with
  | zero =>
    have empty : text = [] := List.eq_nil_of_length_eq_zero (Nat.le_zero.mp enough)
    simp [splitFrom, empty]
  | succ fuel ih =>
    cases text with
    | nil => simp [splitFrom]
    | cons first text =>
      have shorter := length_front_le first text
      have left : (front first text).2.length ≤ fuel :=
        Nat.le_trans shorter (Nat.le_of_succ_le_succ enough)
      rw [splitFrom, ih _ _ left]
      simp [front_chars_append]

/-- The pieces of a text put together are the text. -/
theorem flatMap_chars_split (text : List Char) : (split text).flatMap chars = text := by
  simpa [split] using flatMap_chars_splitFrom text.length text [] (Nat.le_refl _)

end Piece
end Arbor
