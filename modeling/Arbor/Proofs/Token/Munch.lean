import Arbor.Token.Scan
import Mathlib.Data.List.Infix
import Mathlib.Data.List.TakeWhile

/-!
# Longest pieces

The lexical grammar says which characters spell a token, and which may stand between tokens: blanks,
and comments up to the end of their line.  It does not say where one piece ends and the next begins.
That is the rule of the longest piece: at every place the longest form of the grammar that the text
has there is taken.  Where it has none, a character is left over, or the text ends inside a string.

The rule fixes the pieces of a text, and they are those that `Piece.split` cuts.  Tokens and reports
are read off them in order; each is located on the line that the text has reached with its last
character.

## Main definitions

* `Token.Spells`: the lexical grammar of tokens.
* `Piece.Form`, `Piece.Longest`: the forms of pieces, and the longest one at a place.
* `Piece.Munches`: a text is cut into pieces by the rule of the longest piece.

## Main statements

* `Piece.munches_iff`: `Piece.split` cuts by that rule, and nothing else does.
* `Scan.longest_pieces`: tokens, reports and lines of a scan.
-/

namespace Arbor

/-! ### The lexical grammar -/

namespace Token

open Piece (isLetter isWordChar isDigit)

/-- The kinds whose tokens are made of signs. -/
def Kind.signs : List Kind :=
  [leftParen, rightParen, leftBrace, rightBrace, comma, dot, minus, plus, semicolon, star, slash,
    bang, bangEqual, equal, equalEqual, greater, greaterEqual, less, lessEqual]

/-- The characters that spell a token of a kind, and the value that it denotes. -/
inductive Spells : Kind → Constant → List Char → Prop
  | sign {kind : Kind} (sign : kind ∈ Kind.signs) : Spells kind .nil kind.name.toList
  | keyword {kind : Kind} (keyword : kind ∈ Kind.keywords) : Spells kind .nil kind.name.toList
  | identifier {first : Char} {rest : List Char} (letter : isLetter first = true)
      (others : ∀ c ∈ rest, isWordChar c = true)
      (free : ∀ kind ∈ Kind.keywords, kind.name.toList ≠ first :: rest) :
      Spells .identifier .nil (first :: rest)
  | whole {digits : List Char} (some : digits ≠ []) (each : ∀ c ∈ digits, isDigit c = true) :
      Spells .number (.number (Decimal.ofDigits digits []).toFloat) digits
  | fraction {digits decimals : List Char} (some : digits ≠ [])
      (each : ∀ c ∈ digits, isDigit c = true) (further : decimals ≠ [])
      (eachFurther : ∀ c ∈ decimals, isDigit c = true) :
      Spells .number (.number (Decimal.ofDigits digits decimals).toFloat) (digits ++ '.' :: decimals)
  | string {body : List Char} (unquoted : '"' ∉ body) :
      Spells .string (.text (String.ofList body)) ('"' :: (body ++ ['"']))

end Token

namespace Piece

/-- What a piece looks like that is a token or stands between tokens. -/
inductive Form : Piece → Prop
  | token {kind : Token.Kind} {literal : Constant} {chars : List Char}
      (spells : Token.Spells kind literal chars) : Form ⟨.token kind literal, chars⟩
  | blank {c : Char} (blank : isBlank c = true) : Form ⟨.gap, [c]⟩
  | comment {body : List Char} (inLine : '\n' ∉ body) : Form ⟨.gap, '/' :: '/' :: body⟩

/-- No form that the text has at the place of a piece is longer than the piece. -/
def Longest (piece : Piece) (after : List Char) : Prop :=
  ∀ other : Piece, other.Form → other.chars <+: piece.chars ++ after →
    other.chars.length ≤ piece.chars.length

/-- What the rule of the longest piece cuts off in front of `after`. -/
inductive Munched (after : List Char) : Piece → Prop
  | longest {piece : Piece} (form : piece.Form) (longest : piece.Longest after) : Munched after piece
  /-- A character with which no form begins that the text has there. -/
  | unexpected {c : Char} (notQuote : c ≠ '"')
      (none : ∀ other : Piece, other.Form → ¬ other.chars <+: c :: after) :
      Munched after ⟨.unexpected, [c]⟩
  /-- A quote that no other quote follows, and the rest of the text. -/
  | unterminated {body : List Char} (unclosed : '"' ∉ body) (last : after = []) :
      Munched after ⟨.unterminated, '"' :: body⟩

/-- A text is cut into pieces by the rule of the longest piece: put together they are the text, and
each is what the rule cuts off in front of the pieces behind it. -/
structure Munches (text : List Char) (pieces : List Piece) : Prop where
  whole : pieces.flatMap chars = text
  each : ∀ earlier piece later, pieces = earlier ++ piece :: later →
    Munched (later.flatMap chars) piece

end Piece

/-! ### What a token can begin with -/

namespace Token

open Piece (isLetter isWordChar isDigit isBlank)

/-- No letter is a digit, so a word is never a number. -/
theorem isDigit_of_letter {c : Char} (letter : isLetter c = true) : isDigit c = false := by
  simp only [Piece.isLetter, Piece.isDigit, decide_eq_true_eq, decide_eq_false_iff_not, Char.le_def,
    UInt32.le_iff_toNat_le] at letter ⊢
  rintro ⟨low, high⟩
  have nine : '9'.val.toNat = 57 := rfl
  have lower : 'a'.val.toNat = 97 := rfl
  have upper : 'A'.val.toNat = 65 := rfl
  have underscore : '_'.val.toNat = 95 := rfl
  rcases letter with letter | letter | rfl <;> omega

/-- The name of a kind from its first character on, of which something was checked for each of some
kinds. -/
theorem Kind.exists_name_eq (kinds : List Kind) (holds : Char → List Char → Bool)
    (each : kinds.all (fun kind =>
      match kind.name.toList with
      | [] => false
      | c :: rest => holds c rest) = true) {kind : Kind} (mem : kind ∈ kinds) :
    ∃ c rest, kind.name.toList = c :: rest ∧ holds c rest = true := by
  have here := List.all_eq_true.mp each kind mem
  cases spelled : kind.name.toList with
  | nil =>
    rw [spelled] at here
    cases here
  | cons c rest =>
    rw [spelled] at here
    exact ⟨c, rest, rfl, here⟩

/-- A keyword is a word. -/
theorem Kind.exists_keyword_eq {kind : Kind} (keyword : kind ∈ keywords) :
    ∃ c rest, kind.name.toList = c :: rest ∧ isLetter c = true ∧
      ∀ d ∈ rest, isWordChar d = true := by
  obtain ⟨c, rest, spelled, holds⟩ := exists_name_eq keywords
    (fun c rest => isLetter c && rest.all isWordChar) (by decide) keyword
  rw [Bool.and_eq_true, List.all_eq_true] at holds
  exact ⟨c, rest, spelled, holds.1, holds.2⟩

/-- A keyword is looked up as itself. -/
theorem Kind.ofWord_keyword {kind : Kind} (keyword : kind ∈ keywords) :
    Kind.ofWord kind.name = kind := by
  have each : ∀ kind ∈ keywords, Kind.ofWord kind.name = kind := by decide
  exact each kind keyword

/-- Any other word is an identifier. -/
theorem Kind.ofWord_free {word : List Char}
    (free : ∀ kind ∈ keywords, kind.name.toList ≠ word) :
    Kind.ofWord (String.ofList word) = .identifier := by
  have none : keywords.find? (fun kind => kind.name == String.ofList word) = none := by
    refine List.find?_eq_none.mpr fun kind keyword same => free kind keyword ?_
    rw [beq_iff_eq.mp same, String.toList_ofList]
  unfold Kind.ofWord
  rw [none, Option.getD_none]

/-- Every word spells a keyword or an identifier.  It is a keyword if one of them has these
characters, and there are no two such keywords. -/
theorem Spells.word {first : Char} {rest : List Char} (letter : isLetter first = true)
    (others : ∀ c ∈ rest, isWordChar c = true) :
    Spells (Kind.ofWord (String.ofList (first :: rest))) .nil (first :: rest) := by
  by_cases taken : ∃ kind ∈ Kind.keywords, kind.name.toList = first :: rest
  · obtain ⟨kind, keyword, spelled⟩ := taken
    have spells := Spells.keyword keyword
    rwa [spelled, ← Kind.ofWord_keyword keyword, ← String.ofList_toList (s := kind.name), spelled]
      at spells
  · have free : ∀ kind ∈ Kind.keywords, kind.name.toList ≠ first :: rest :=
      fun kind keyword spelled => taken ⟨kind, keyword, spelled⟩
    rw [Kind.ofWord_free free]
    exact .identifier letter others free

/-- What a character begins, if it is the first of a token. -/
inductive Opening where
  | word | number | string | sign
deriving DecidableEq

/-- The first character of a token says what the token is. -/
def Opening.ofChar (c : Char) : Opening :=
  if isLetter c then .word else if isDigit c then .number else if c = '"' then .string else .sign

/-- Tokens by their first character. -/
inductive Begins (c : Char) (rest : List Char) : Kind → Constant → Prop
  | word (opening : Opening.ofChar c = .word) (others : ∀ d ∈ rest, isWordChar d = true) :
      Begins c rest (Kind.ofWord (String.ofList (c :: rest))) .nil
  | number {digits decimals : List Char} (opening : Opening.ofChar c = .number)
      (whole : c :: rest = digits ++ decimals) (each : ∀ d ∈ digits, isDigit d = true)
      (further : decimals = [] ∨
        ∃ d more, decimals = '.' :: d :: more ∧ ∀ e ∈ d :: more, isDigit e = true) :
      Begins c rest .number (.number (Decimal.ofDigits digits decimals.tail).toFloat)
  | string {body : List Char} (opening : Opening.ofChar c = .string) (whole : rest = body ++ ['"'])
      (unquoted : '"' ∉ body) : Begins c rest .string (.text (String.ofList body))
  | sign {kind : Kind} (opening : Opening.ofChar c = .sign) (sign : kind ∈ Kind.signs)
      (spelled : kind.name.toList = c :: rest) : Begins c rest kind .nil

theorem Opening.ofChar_letter {c : Char} (letter : isLetter c = true) : ofChar c = .word :=
  if_pos letter

theorem Opening.ofChar_digit {c : Char} (digit : isDigit c = true) : ofChar c = .number := by
  have notLetter : ¬ isLetter c = true := by
    intro letter
    rw [isDigit_of_letter letter] at digit
    cases digit
  unfold ofChar
  rw [if_neg notLetter, if_pos digit]

/-- The signs that may have an equals sign behind them. -/
def equalables : List Char :=
  ['!', '=', '<', '>']

/-- A token made of signs is one sign, which is no blank, or one with an equals sign behind it. -/
theorem Kind.exists_sign_eq {kind : Kind} (sign : kind ∈ signs) :
    ∃ c rest, kind.name.toList = c :: rest ∧ Opening.ofChar c = .sign ∧ isBlank c = false ∧
      (rest = [] ∨ c ∈ equalables ∧ rest = ['=']) := by
  obtain ⟨c, rest, spelled, holds⟩ := exists_name_eq signs
    (fun c rest => decide (Opening.ofChar c = .sign ∧ isBlank c = false ∧
      (rest = [] ∨ c ∈ equalables ∧ rest = ['=']))) (by decide) sign
  exact ⟨c, rest, spelled, of_decide_eq_true holds⟩

/-- What a token's first character is fixes its form, and what may follow.  The forms have no first
character in common, so two tokens that begin alike are compared within one form. -/
theorem Spells.begins {kind : Kind} {literal : Constant} {c : Char} {rest : List Char}
    (spells : Spells kind literal (c :: rest)) : Begins c rest kind literal := by
  generalize whole : c :: rest = chars at spells
  cases spells with
  | sign sign =>
    obtain ⟨_, _, spelled, opening, -⟩ := Kind.exists_sign_eq sign
    cases whole.trans spelled
    exact .sign opening sign whole.symm
  | keyword keyword =>
    obtain ⟨_, _, spelled, letter, others⟩ := Kind.exists_keyword_eq keyword
    cases whole.trans spelled
    rw [← Kind.ofWord_keyword keyword, ← String.ofList_toList (s := kind.name), spelled]
    exact .word (Opening.ofChar_letter letter) others
  | identifier letter others free =>
    cases whole
    rw [← Kind.ofWord_free free]
    exact .word (Opening.ofChar_letter letter) others
  | whole _ each =>
    cases whole
    have digit := each c List.mem_cons_self
    exact @Begins.number c rest (c :: rest) [] (Opening.ofChar_digit digit)
      (List.append_nil _).symm each (.inl rfl)
  | @fraction digits decimals some each further eachFurther =>
    obtain ⟨first, others, rfl⟩ := List.exists_cons_of_ne_nil some
    obtain ⟨d, more, rfl⟩ := List.exists_cons_of_ne_nil further
    cases whole
    have digit := each c List.mem_cons_self
    exact @Begins.number c _ (c :: others) ('.' :: d :: more) (Opening.ofChar_digit digit) rfl each
      (.inr ⟨d, more, rfl, eachFurther⟩)
  | string unquoted =>
    cases whole
    exact .string rfl rfl unquoted

/-- No token is empty.  So each piece takes some characters, and the text comes to an end. -/
theorem Spells.exists_cons {kind : Kind} {literal : Constant} {chars : List Char}
    (spells : Spells kind literal chars) : ∃ c rest, chars = c :: rest := by
  cases spells with
  | sign sign =>
    obtain ⟨c, rest, spelled, -⟩ := Kind.exists_sign_eq sign
    exact ⟨c, rest, spelled⟩
  | keyword keyword =>
    obtain ⟨c, rest, spelled, -⟩ := Kind.exists_keyword_eq keyword
    exact ⟨c, rest, spelled⟩
  | identifier => exact ⟨_, _, rfl⟩
  | whole some => exact List.exists_cons_of_ne_nil some
  | @fraction digits decimals some =>
    obtain ⟨c, rest, rfl⟩ := List.exists_cons_of_ne_nil some
    exact ⟨c, rest ++ '.' :: decimals, rfl⟩
  | string => exact ⟨_, _, rfl⟩

/-- The digits of a number end where its point is. -/
theorem takeWhile_digits {digits decimals : List Char} (each : ∀ d ∈ digits, isDigit d = true)
    (further : decimals = [] ∨
      ∃ d more, decimals = '.' :: d :: more ∧ ∀ e ∈ d :: more, isDigit e = true) :
    (digits ++ decimals).takeWhile isDigit = digits := by
  rw [List.takeWhile_append_of_pos each]
  rcases further with rfl | ⟨d, more, rfl, -⟩ <;> simp [show isDigit '.' = false by decide]

/-- Characters spell at most one token.  By their first character both are of one form, and within a
form the content is read off the characters. -/
theorem Spells.unique {kind kind' : Kind} {literal literal' : Constant} {chars : List Char}
    (one : Spells kind literal chars) (two : Spells kind' literal' chars) :
    kind = kind' ∧ literal = literal' := by
  obtain ⟨c, rest, rfl⟩ := one.exists_cons
  cases one.begins with
  | word opening =>
    cases two.begins with
    | word => exact ⟨rfl, rfl⟩
    | number other | string other | sign other => cases opening.symm.trans other
  | @number digits decimals opening whole each further =>
    cases two.begins with
    | @number digits' decimals' _ whole' each' further' =>
      obtain rfl : digits = digits' := by
        rw [← takeWhile_digits each further, ← takeWhile_digits each' further', ← whole, ← whole']
      obtain rfl : decimals = decimals' := List.append_cancel_left (whole.symm.trans whole')
      exact ⟨rfl, rfl⟩
    | word other | string other | sign other => cases opening.symm.trans other
  | string opening whole unquoted =>
    cases two.begins with
    | string _ whole' unquoted' =>
      cases List.append_cancel_right (whole.symm.trans whole')
      exact ⟨rfl, rfl⟩
    | word other | number other | sign other => cases opening.symm.trans other
  | sign opening sign spelled =>
    cases two.begins with
    | sign _ sign' spelled' =>
      have apart : ∀ a ∈ Kind.signs, ∀ b ∈ Kind.signs, a.name.toList = b.name.toList → a = b := by
        decide +kernel
      exact ⟨apart _ sign _ sign' (spelled.trans spelled'.symm), rfl⟩
    | word other | number other | string other => cases opening.symm.trans other

end Token

/-! ### Forms -/

namespace Piece

open Token (Opening Spells Kind.signs equalables)

variable {first c : Char} {text after : List Char} {piece other : Piece}

theorem opening_of_blank (blank : isBlank c = true) : Opening.ofChar c = .sign := by
  simp only [isBlank, Bool.or_eq_true, beq_iff_eq] at blank
  rcases blank with ((rfl | rfl) | rfl) | rfl <;> decide

/-- No token begins with a blank.  A token is a word, a number or a string, whose first characters
are no blanks, or a sign, and no sign begins with one either. -/
theorem not_spells_blank {kind : Token.Kind} {literal : Constant} (blank : isBlank c = true)
    (rest : List Char) : ¬ Spells kind literal (c :: rest) := by
  intro spells
  cases spells.begins with
  | word opening | number opening | string opening =>
    cases (opening_of_blank blank).symm.trans opening
  | sign _ sign spelled =>
    obtain ⟨_, _, spelled', -, notBlank, -⟩ := Token.Kind.exists_sign_eq sign
    cases spelled.symm.trans spelled'
    rw [notBlank] at blank
    cases blank

/-- Nor with two slashes, although one of them is a token. -/
theorem not_spells_comment {kind : Token.Kind} {literal : Constant} (body : List Char) :
    ¬ Spells kind literal ('/' :: '/' :: body) := by
  intro spells
  cases spells.begins with
  | word opening | number opening | string opening => cases opening
  | sign _ sign spelled =>
    obtain ⟨_, _, spelled', -, -, none | ⟨-, one⟩⟩ := Token.Kind.exists_sign_eq sign
    · cases spelled.symm.trans (none ▸ spelled')
    · cases spelled.symm.trans (one ▸ spelled')

/-- Characters have at most one form: no token begins with a blank or with two slashes.  So the text
of a piece tells its kind and its literal. -/
theorem Form.unique {p q : Piece} (one : p.Form) (two : q.Form) (same : p.chars = q.chars) :
    p = q := by
  cases one with
  | token spells =>
    cases two with
    | token spells' =>
      dsimp only at same
      subst same
      obtain ⟨rfl, rfl⟩ := spells.unique spells'
      rfl
    | blank blank =>
      dsimp only at same
      subst same
      exact absurd spells (not_spells_blank blank _)
    | comment =>
      dsimp only at same
      subst same
      exact absurd spells (not_spells_comment _)
  | blank blank =>
    cases two with
    | token spells =>
      dsimp only at same
      subst same
      exact absurd spells (not_spells_blank blank _)
    | blank =>
      cases same
      rfl
    | comment => cases same
  | comment =>
    cases two with
    | token spells =>
      dsimp only at same
      subst same
      exact absurd spells (not_spells_comment _)
    | blank => cases same
    | comment =>
      cases same
      rfl

/-- No piece is empty, so that cutting pieces off a text comes to an end. -/
theorem Form.exists_cons (form : piece.Form) : ∃ c rest, piece.chars = c :: rest := by
  cases form with
  | token spells => exact spells.exists_cons
  | blank => exact ⟨_, _, rfl⟩
  | comment => exact ⟨_, _, rfl⟩

/-! ### The piece that is cut off is the longest -/

/-- The longest piece that begins with a sign is the sign alone, unless an equals sign can follow it
or it begins a comment. -/
theorem longest_of_sign (opening : Opening.ofChar first = .sign)
    (whole : piece.chars ++ after = first :: text) (some : piece.chars ≠ [])
    (equals : ∀ rest, first ∈ equalables → text = '=' :: rest → 2 ≤ piece.chars.length)
    (comments : ∀ body, first = '/' → '\n' ∉ body → '/' :: body <+: text →
      body.length + 2 ≤ piece.chars.length) : piece.Longest after := by
  intro other form here
  have one : 1 ≤ piece.chars.length := List.length_pos_iff.mpr some
  rw [whole] at here
  cases form with
  | token spells =>
    obtain ⟨c, rest, rfl⟩ := spells.exists_cons
    obtain ⟨rfl, further⟩ := List.cons_prefix_cons.mp here
    cases spells.begins with
    | word other | number other | string other => cases opening.symm.trans other
    | sign _ sign spelled =>
      obtain ⟨_, _, spelled', -, -, alone⟩ := Token.Kind.exists_sign_eq sign
      cases spelled.symm.trans spelled'
      rcases alone with rfl | ⟨equalable, rfl⟩
      · exact one
      · obtain ⟨rest, rfl⟩ := further
        exact equals rest equalable rfl
  | blank => exact one
  | comment inLine =>
    obtain ⟨rfl, further⟩ := List.cons_prefix_cons.mp here
    exact comments _ rfl inLine further

/-- What begins with a letter, a digit or a quote is a token.  Comments begin with a slash, and the
other gaps are blanks. -/
theorem Form.spells {rest : List Char} (form : piece.Form) (spelled : piece.chars = c :: rest)
    (opening : Opening.ofChar c ≠ .sign) : ∃ kind literal, Spells kind literal (c :: rest) := by
  cases form with
  | token spells =>
    dsimp only at spelled
    rw [spelled] at spells
    exact ⟨_, _, spells⟩
  | blank blank =>
    cases spelled
    exact absurd (opening_of_blank blank) opening
  | comment =>
    cases spelled
    exact absurd rfl opening

/-- So the longest piece that begins with one of them is to be found among tokens.  It is enough to
compare its length with those. -/
theorem longest_of_token {opening : Opening} (opens : Opening.ofChar first = opening)
    (notSign : opening ≠ .sign) (whole : piece.chars ++ after = first :: text)
    (tokens : ∀ kind literal rest further, Token.Begins first rest kind literal →
      text = rest ++ further → rest.length + 1 ≤ piece.chars.length) : piece.Longest after := by
  intro other form here
  rw [whole] at here
  obtain ⟨c, rest, spelled⟩ := form.exists_cons
  rw [spelled, List.cons_prefix_cons] at here
  obtain ⟨rfl, further, rfl⟩ := here
  have other' : Opening.ofChar c ≠ .sign := by rwa [opens]
  obtain ⟨kind, literal, spells⟩ := form.spells spelled other'
  rw [spelled]
  exact tokens kind literal rest further spells.begins rfl

/-- A word takes all characters that can continue it.  One that is longer would contain a character
that cannot. -/
theorem munched_word (letter : isLetter first = true) :
    Munched (word first text).2 (word first text).1 := by
  have opens := Opening.ofChar_letter letter
  refine .longest (.token (.word letter fun c mem => List.mem_takeWhile_imp mem)) ?_
  refine longest_of_token opens (by decide) (word_chars_append first text) ?_
  rintro kind literal rest further begins rfl
  cases begins with
  | word _ others =>
    change _ ≤ (first :: (rest ++ further).takeWhile isWordChar).length
    rw [List.takeWhile_append_of_pos others]
    simp
  | number other | string other | sign other => cases opens.symm.trans other

/-- A fraction is there if a digit follows the point.  Otherwise the point is left for the next
piece. -/
theorem fractionPart_cases (text : List Char) :
    (fractionPart text = ([], text) ∧
      ∀ d rest, text = '.' :: d :: rest → isDigit d = false) ∨
    ∃ d rest, text = '.' :: d :: rest ∧ isDigit d = true ∧
      fractionPart text = ('.' :: d :: rest.takeWhile isDigit, rest.dropWhile isDigit) := by
  unfold fractionPart
  split
  · next d rest =>
    cases digit : isDigit d with
    | true => exact .inr ⟨d, rest, rfl, digit, if_pos rfl⟩
    | false =>
      refine .inl ⟨if_neg Bool.false_ne_true, ?_⟩
      rintro _ _ ⟨⟩
      exact digit
  · next none => exact .inl ⟨rfl, fun d rest same => absurd same (none d rest)⟩

/-- A number takes all digits, and the point with the digits behind it if there are any.  A longer
number would have to go on with a digit, and no other token begins with one. -/
theorem munched_number (digit : isDigit first = true) :
    Munched (number first text).2 (number first text).1 := by
  have opens := Opening.ofChar_digit digit
  have eachWhole : ∀ c ∈ first :: text.takeWhile isDigit, isDigit c = true := by
    intro c mem
    rcases List.mem_cons.mp mem with rfl | mem
    · exact digit
    · exact List.mem_takeWhile_imp mem
  have form : (number first text).1.Form := by
    refine .token ?_
    rcases fractionPart_cases (text.dropWhile isDigit) with ⟨none, -⟩ | ⟨d, rest, -, digit', some⟩
    · rw [none]
      dsimp only
      rw [List.append_nil]
      exact .whole (List.cons_ne_nil _ _) eachWhole
    · rw [some]
      refine .fraction (List.cons_ne_nil _ _) eachWhole (List.cons_ne_nil _ _) fun c mem => ?_
      rcases List.mem_cons.mp mem with rfl | mem
      · exact digit'
      · exact List.mem_takeWhile_imp mem
  refine .longest form (longest_of_token opens (by decide) (number_chars_append first text) ?_)
  rintro kind literal rest further begins rfl
  change _ ≤ (first :: (rest ++ further).takeWhile isDigit ++
    (fractionPart ((rest ++ further).dropWhile isDigit)).1).length
  cases begins with
  | @number digits decimals _ whole each decimal =>
    obtain ⟨d, others, rfl⟩ : ∃ d others, digits = d :: others := by
      cases digits with
      | cons d others => exact ⟨d, others, rfl⟩
      | nil =>
        -- a number begins with a digit, and not with the point
        rcases decimal with rfl | ⟨d, more, rfl, -⟩
        · cases whole
        · cases whole
          exact absurd digit (by decide)
    rw [List.cons_append, List.cons.injEq] at whole
    obtain ⟨rfl, rfl⟩ := whole
    have others' : ∀ d ∈ others, isDigit d = true := fun d mem => each d (List.mem_cons_of_mem _ mem)
    rw [List.append_assoc, List.takeWhile_append_of_pos others', List.dropWhile_append_of_pos others']
    rcases decimal with rfl | ⟨d, more, rfl, each'⟩
    · simp only [List.append_nil, List.nil_append, List.length_append, List.length_cons]
      omega
    · have point : isDigit '.' = false := by decide
      have digit' : isDigit d = true := each' d List.mem_cons_self
      have more' : ∀ e ∈ more, isDigit e = true := fun e mem => each' e (List.mem_cons_of_mem _ mem)
      simp only [List.cons_append, List.takeWhile_cons, List.dropWhile_cons, point, fractionPart,
        digit', Bool.false_eq_true, if_false, if_true, List.takeWhile_append_of_pos more',
        List.length_append, List.length_cons, List.append_nil]
      omega
  | word other | string other | sign other => cases opens.symm.trans other

/-- A string ends with the next quote, or with the text if there is none.  In the second case there
is no form at all, since no other begins with a quote. -/
theorem munched_quoted (text : List Char) :
    Munched (quoted '"' text).2 (quoted '"' text).1 := by
  have unquoted : '"' ∉ text.takeWhile (· != '"') := by
    intro mem
    have differs := List.mem_takeWhile_imp mem
    simp at differs
  have chars := quoted_chars_append '"' text
  unfold quoted at chars ⊢
  split
  · exact .unterminated unquoted rfl
  · next quote rest found =>
    rw [found] at chars
    obtain rfl : quote = '"' := by
      have stops := List.head?_dropWhile_not (· != '"') text
      rw [found] at stops
      simpa using stops
    refine .longest (.token (.string unquoted))
      (longest_of_token rfl (by decide) chars ?_)
    rintro kind literal rest' further begins rfl
    cases begins with
    | string _ whole unquoted' =>
      subst whole
      have passes : ∀ c ∈ _, (c != '"') = true := fun c mem =>
        bne_iff_ne.mpr fun same => unquoted' (same ▸ mem)
      rw [List.append_assoc, List.takeWhile_append_of_pos passes]
      simp
    | word other | number other | sign other => cases other

/-- Two slashes begin a comment, which ends with its line.  A slash alone is a sign, and the only
one whose first character begins another form. -/
theorem munched_slashed (text : List Char) :
    Munched (slashed '/' text).2 (slashed '/' text).1 := by
  have chars := slashed_chars_append '/' text
  unfold slashed at chars ⊢
  split
  · next rest =>
    have body : ('/' :: rest).takeWhile (· != '\n') = '/' :: rest.takeWhile (· != '\n') := by
      rw [List.takeWhile_cons_of_pos (by decide)]
    have inLine : '\n' ∉ rest.takeWhile (· != '\n') := by
      intro mem
      have differs := List.mem_takeWhile_imp mem
      simp at differs
    dsimp only at chars ⊢
    rw [body] at chars ⊢
    refine .longest (.comment inLine) (longest_of_sign rfl chars (List.cons_ne_nil _ _) ?_ ?_)
    · intro _ equalable
      exact absurd equalable (by decide)
    · rintro other - inLine' ⟨further, same⟩
      simp only [List.cons_append, List.cons.injEq, true_and] at same
      subst same
      have passes : ∀ c ∈ other, (c != '\n') = true := fun c mem =>
        bne_iff_ne.mpr fun same => inLine' (same ▸ mem)
      rw [List.takeWhile_append_of_pos passes]
      simp
  · next alone =>
    have sign : Token.Kind.slash ∈ Kind.signs := by decide
    refine .longest (.token (.sign sign)) (longest_of_sign rfl rfl (List.cons_ne_nil _ _) ?_ ?_)
    · intro _ equalable
      exact absurd equalable (by decide)
    · rintro body - - ⟨further, same⟩
      exact absurd same.symm (alone _)

/-- A sign of one character is spelled by it, and is none of those that an equals sign may
extend. -/
theorem single?_sign {kind : Token.Kind} (found : single? c = some kind) :
    kind ∈ Kind.signs ∧ kind.name.toList = [c] ∧ Opening.ofChar c = .sign ∧ c ∉ equalables ∧
      c ≠ '/' := by
  unfold single? at found
  split at found <;> first | (cases found; decide) | cases found

/-- The others are signs alone and signs with an equals sign behind them. -/
theorem equalable?_sign {alone withEqual : Token.Kind}
    (found : equalable? c = some (alone, withEqual)) :
    alone ∈ Kind.signs ∧ alone.name.toList = [c] ∧ withEqual ∈ Kind.signs ∧
      withEqual.name.toList = [c, '='] ∧ Opening.ofChar c = .sign ∧ c ≠ '/' := by
  unfold equalable? at found
  split at found <;> first | (cases found; decide) | cases found

/-- A sign that is cut off alone. -/
theorem munched_plain {kind : Token.Kind} (sign : kind ∈ Kind.signs)
    (spelled : kind.name.toList = [first]) (opening : Opening.ofChar first = .sign)
    (notSlash : first ≠ '/') (alone : ∀ rest, first ∈ equalables → text ≠ '=' :: rest) :
    Munched text (plain kind [first]) := by
  have spells := Spells.sign sign
  rw [spelled] at spells
  refine .longest (.token spells) (longest_of_sign opening rfl (List.cons_ne_nil _ _) ?_ ?_)
  · intro rest equalable same
    exact absurd same (alone rest equalable)
  · intro _ slash
    exact absurd slash notSlash

/-- Every sign with which a token begins is known to be one. -/
theorem known_of_sign {kind : Token.Kind} (sign : kind ∈ Kind.signs) {rest : List Char}
    (spelled : kind.name.toList = c :: rest) :
    single? c ≠ none ∨ equalable? c ≠ none ∨ c = '/' := by
  obtain ⟨_, _, same, holds⟩ := Token.Kind.exists_name_eq Kind.signs
    (fun c _ => decide (single? c ≠ none ∨ equalable? c ≠ none ∨ c = '/')) (by decide) sign
  cases same.symm.trans spelled
  exact of_decide_eq_true holds

/-- What is cut off in front of a text is what the rule of the longest piece cuts off.  There is a
case for each way in which the scanner begins, by the first character. -/
theorem munched_front (first : Char) (text : List Char) :
    Munched (front first text).2 (front first text).1 := by
  unfold front
  split
  · next found =>
    obtain ⟨sign, spelled, opening, notEqualable, notSlash⟩ := single?_sign found
    exact munched_plain sign spelled opening notSlash fun _ equalable => absurd equalable notEqualable
  · next found =>
    obtain ⟨sign, spelled, signEqual, spelledEqual, opening, notSlash⟩ := equalable?_sign found
    split
    · have spells := Spells.sign signEqual
      rw [spelledEqual] at spells
      refine .longest (.token spells) (longest_of_sign opening rfl (List.cons_ne_nil _ _) ?_ ?_)
      · exact fun _ _ _ => Nat.le_refl 2
      · intro _ slash
        exact absurd slash notSlash
    · next alone => exact munched_plain sign spelled opening notSlash fun rest _ => alone rest
  · next notSingle notEqualable =>
    split
    · next slash =>
      subst slash
      exact munched_slashed text
    split
    · next notSlash blank =>
      refine .longest (.blank blank) (longest_of_sign (opening_of_blank blank) rfl
        (List.cons_ne_nil _ _) ?_ ?_)
      · intro _ equalable
        have known : equalables.all (fun c => (equalable? c).isSome) = true := by decide
        have found := List.all_eq_true.mp known first equalable
        rw [notEqualable] at found
        cases found
      · intro _ slash
        exact absurd slash notSlash
    split
    · next quote =>
      subst quote
      exact munched_quoted text
    split
    · next digit => exact munched_number digit
    split
    · next letter => exact munched_word letter
    · next notSlash notBlank notQuote notDigit notLetter =>
      have opening : Opening.ofChar first = .sign := by
        unfold Opening.ofChar
        rw [if_neg notLetter, if_neg notDigit, if_neg notQuote]
      refine .unexpected notQuote fun other form here => ?_
      cases form with
      | token spells =>
        obtain ⟨c, rest, rfl⟩ := spells.exists_cons
        obtain ⟨rfl, -⟩ := List.cons_prefix_cons.mp here
        cases spells.begins with
        | word other | number other | string other => cases opening.symm.trans other
        | sign _ sign spelled =>
          rcases known_of_sign sign spelled with single | equalable | slash
          · exact single notSingle
          · exact equalable notEqualable
          · exact notSlash slash
      | blank blank =>
        obtain ⟨rfl, -⟩ := List.cons_prefix_cons.mp here
        exact notBlank blank
      | comment =>
        obtain ⟨rfl, -⟩ := List.cons_prefix_cons.mp here
        exact notSlash rfl

/-! ### The rule fixes the pieces -/

/-- What is cut off by the rule is not empty either, also where no form fits. -/
theorem Munched.exists_cons (munched : Munched after piece) : ∃ c rest, piece.chars = c :: rest := by
  cases munched with
  | longest form => exact form.exists_cons
  | unexpected => exact ⟨_, _, rfl⟩
  | unterminated => exact ⟨_, _, rfl⟩

/-- A string without a closing quote has no form.  Nothing else begins with a quote. -/
theorem not_form_of_unclosed {body : List Char} (unclosed : '"' ∉ body) (form : other.Form) :
    ¬ other.chars <+: '"' :: body := by
  intro here
  obtain ⟨c, rest, spelled⟩ := form.exists_cons
  rw [spelled] at here
  obtain ⟨rfl, further, rfl⟩ := List.cons_prefix_cons.mp here
  obtain ⟨_, _, spells⟩ := form.spells spelled (by decide)
  cases spells.begins with
  | word opening | number opening | sign opening => cases opening
  | string _ whole _ =>
    subst whole
    exact unclosed (by simp)

/-- Of a text the rule cuts off one piece only.  Two longest forms are as long as each other, and
the other two cases are those where there is no form. -/
theorem Munched.unique {p q : Piece} {rest rest' : List Char} (one : Munched rest p)
    (two : Munched rest' q) (same : p.chars ++ rest = q.chars ++ rest') : p = q ∧ rest = rest' := by
  suffices p = q by
    subst this
    exact ⟨rfl, List.append_cancel_left same⟩
  have here : q.chars <+: p.chars ++ rest := ⟨rest', same.symm⟩
  have there : p.chars <+: q.chars ++ rest' := ⟨rest, same⟩
  cases one with
  | longest form longest =>
    cases two with
    | longest form' longest' =>
      -- neither is longer than the other
      have length := Nat.le_antisymm (longest' p form there) (longest q form' here)
      exact form.unique form' (List.append_inj_left same length)
    | unexpected _ none => exact absurd there (none p form)
    | unterminated unclosed last =>
      rw [last, List.append_nil] at there
      exact absurd there (not_form_of_unclosed unclosed form)
  | unexpected notQuote none =>
    cases two with
    | longest form' _ => exact absurd here (none q form')
    | unexpected =>
      cases same
      rfl
    | unterminated =>
      cases same
      exact absurd rfl notQuote
  | unterminated unclosed last =>
    rw [last, List.append_nil] at here same
    cases two with
    | longest form' _ => exact absurd here (not_form_of_unclosed unclosed form')
    | unexpected notQuote =>
      cases same
      exact absurd rfl notQuote
    | unterminated _ last' =>
      rw [last', List.append_nil] at same
      cases same
      rfl

/-- The empty text has no pieces. -/
theorem Munches.nil : Munches [] [] :=
  ⟨rfl, fun _ _ _ same => absurd same (List.append_ne_nil_of_right_ne_nil _ (List.cons_ne_nil _ _)).symm⟩

/-- A piece that the rule cuts off goes in front of the pieces of the rest. -/
theorem Munches.cons {pieces : List Piece} (munched : Munched text piece)
    (munches : Munches text pieces) : Munches (piece.chars ++ text) (piece :: pieces) := by
  refine ⟨?_, fun earlier other later same => ?_⟩
  · rw [List.flatMap_cons, munches.whole]
  · cases earlier with
    | nil =>
      obtain ⟨rfl, rfl⟩ := List.cons.inj same
      rwa [munches.whole]
    | cons _ earlier => exact munches.each earlier other later (List.cons.inj same).2

/-- Without its first piece a text is cut as before. -/
theorem Munches.tail {pieces : List Piece} (munches : Munches text (piece :: pieces)) :
    Munched (pieces.flatMap chars) piece ∧ Munches (pieces.flatMap chars) pieces := by
  refine ⟨munches.each [] piece pieces rfl, rfl, fun earlier other later same => ?_⟩
  exact munches.each (piece :: earlier) other later (congrArg (piece :: ·) same)

/-- Of a text the rule makes one list of pieces only.  The first pieces are the same, and so is what
is left of the text. -/
theorem Munches.unique {ps qs : List Piece} (one : Munches text ps) (two : Munches text qs) :
    ps = qs := by
  induction ps generalizing text qs with
  | nil =>
    cases qs with
    | nil => rfl
    | cons q qs =>
      obtain ⟨c, rest, spelled⟩ := two.tail.1.exists_cons
      have empty := one.whole.trans two.whole.symm
      rw [List.flatMap_cons, spelled] at empty
      cases empty
  | cons p ps ih =>
    cases qs with
    | nil =>
      obtain ⟨c, rest, spelled⟩ := one.tail.1.exists_cons
      have empty := one.whole.trans two.whole.symm
      rw [List.flatMap_cons, spelled] at empty
      cases empty
    | cons q qs =>
      obtain ⟨first, others⟩ := one.tail
      obtain ⟨first', others'⟩ := two.tail
      obtain ⟨rfl, same⟩ := first.unique first' (one.whole.trans two.whole.symm)
      rw [← same] at others'
      rw [ih others others']

/-- The pieces of a text without the detour over those that were cut off before.  These are
collected in reverse, and put in front in the end. -/
theorem splitFrom_eq (fuel : Nat) (text : List Char) (before : List Piece) :
    splitFrom fuel text before = before.reverse ++ splitFrom fuel text [] := by
  induction fuel generalizing text before with
  | zero => simp [splitFrom]
  | succ fuel ih =>
    cases text with
    | nil => simp [splitFrom]
    | cons first text =>
      rw [splitFrom, splitFrom, ih _ ((front first text).1 :: before), ih _ [(front first text).1]]
      simp

/-- With a step for every character, the text is cut to its end.  The induction is on the steps, as
each piece may use up more than one character. -/
theorem munches_splitFrom (fuel : Nat) (text : List Char) (enough : text.length ≤ fuel) :
    Munches text (splitFrom fuel text []) := by
  induction fuel generalizing text with
  | zero =>
    obtain rfl : text = [] := List.eq_nil_of_length_eq_zero (Nat.le_zero.mp enough)
    exact .nil
  | succ fuel ih =>
    cases text with
    | nil => exact .nil
    | cons first text =>
      have left : (front first text).2.length ≤ fuel :=
        Nat.le_trans (length_front_le first text) (Nat.le_of_succ_le_succ enough)
      rw [splitFrom, splitFrom_eq, ← front_chars_append]
      exact .cons (munched_front first text) (ih _ left)

/-- A text is cut by the rule of the longest piece, and in no other way. -/
theorem munches_iff {pieces : List Piece} : Munches text pieces ↔ pieces = split text := by
  have munches : Munches text (split text) := munches_splitFrom _ _ (Nat.le_refl _)
  constructor
  · exact fun other => other.unique munches
  · rintro rfl
    exact munches

end Piece

/-! ### Tokens, reports and lines -/

/-- The line that a text has reached at its end. -/
def lineAt (text : List Char) : Int :=
  1 + (text.count '\n' : Int)

namespace Piece

/-- The token that the last of some pieces is, on the line that they reach. -/
def lastToken? (pieces : List Piece) : Option Token :=
  match pieces.getLast? with
  | some ⟨.token kind literal, spelling⟩ =>
    some ⟨kind, String.ofList spelling, literal, lineAt (pieces.flatMap chars)⟩
  | _ => none

/-- The report on the last of some pieces, if it is none that a text may have, on the line that they
reach. -/
def lastReport? (pieces : List Piece) : Option Diagnostic :=
  match pieces.getLast? with
  | some ⟨.unexpected, _⟩ => some (.lexical (lineAt (pieces.flatMap chars)) .unexpectedCharacter)
  | some ⟨.unterminated, _⟩ => some (.lexical (lineAt (pieces.flatMap chars)) .unterminatedString)
  | _ => none

end Piece

namespace Scan

/-- A scan of pieces, read off their initial parts. -/
structure ReadOff (s : Scan) (pieces : List Piece) : Prop where
  line : s.line = lineAt (pieces.flatMap Piece.chars)
  tokens : s.tokens.toList = pieces.inits.filterMap Piece.lastToken?
  reports : s.reports.toList = pieces.inits.filterMap Piece.lastReport?

/-- Reading off one piece more adds at most one thing at the end. -/
theorem filterMap_inits_concat {α : Type} (f : List Piece → Option α) (pieces : List Piece)
    (piece : Piece) : (pieces ++ [piece]).inits.filterMap f
      = pieces.inits.filterMap f ++ (f (pieces ++ [piece])).toList := by
  rw [List.inits_append, List.filterMap_append]
  cases found : f (pieces ++ [piece]) <;> simp [found]

/-- A further piece adds its token or its report.  Either is on the line that was reached behind it,
and so the line can be counted in the characters. -/
theorem ReadOff.add {s : Scan} {pieces : List Piece} (off : s.ReadOff pieces) (piece : Piece) :
    (s.add piece).ReadOff (pieces ++ [piece]) := by
  have line : lineAt ((pieces ++ [piece]).flatMap Piece.chars)
      = s.line + (piece.chars.count '\n' : Int) := by
    rw [off.line]
    simp [lineAt, Int.add_assoc]
  obtain ⟨role, chars⟩ := piece
  have tokens := filterMap_inits_concat Piece.lastToken? pieces ⟨role, chars⟩
  have reports := filterMap_inits_concat Piece.lastReport? pieces ⟨role, chars⟩
  rw [← off.tokens, Piece.lastToken?, List.getLast?_concat, line] at tokens
  rw [← off.reports, Piece.lastReport?, List.getLast?_concat, line] at reports
  unfold Scan.add
  cases role <;> exact ⟨line.symm, by simpa using tokens.symm, by simpa using reports.symm⟩

/-- Tokens and reports can be read off the pieces, by adding them one by one. -/
theorem readOff_foldl (pieces : List Piece) : (pieces.foldl add {}).ReadOff pieces := by
  induction pieces using List.reverseRecOn with
  | nil => exact ⟨rfl, rfl, rfl⟩
  | append_singleton pieces piece ih =>
    rw [List.foldl_concat]
    exact ih.add piece

/-- A scan goes by the rule of the longest piece.  The rule cuts a text in one way only; the tokens of
the text are the pieces that are tokens, in order and each spelled as it stands there; there is one
report for every character that belongs nowhere and one for a string in which the text ends, in
order; every token and every report is on the line that the text has reached with the last character
of its piece, and the ending is on the last line. -/
theorem longest_pieces (text : String) :
    ∃ pieces, (∀ others, Piece.Munches text.toList others ↔ others = pieces) ∧
      (ofText text).tokens.toList = pieces.inits.filterMap Piece.lastToken? ∧
      (ofText text).reports.toList = pieces.inits.filterMap Piece.lastReport? ∧
      (ofText text).ending = .ending (lineAt text.toList) := by
  have off := readOff_foldl (Piece.split text.toList)
  refine ⟨Piece.split text.toList, fun _ => Piece.munches_iff, off.tokens, off.reports, ?_⟩
  have line := off.line
  rw [Piece.flatMap_chars_split] at line
  exact congrArg Token.ending line

example : (ofText "===").tokens.toList.map Token.lexeme = ["==", "="] := by decide

example : (ofText "1.2.3 6.").tokens.toList.map Token.lexeme = ["1.2", ".", "3", "6", "."] := by
  decide +kernel

example : (ofText "classes class").tokens.toList.map Token.kind = [.identifier, .kwClass] := by
  decide

end Scan
end Arbor
