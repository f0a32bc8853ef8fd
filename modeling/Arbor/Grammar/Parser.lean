import Arbor.Diagnostic
import Arbor.Program

/-!
# Parsers over tokens

A parser takes tokens off the front of what remains and adds to the reports.  It stops early in
two ways: at a grammar error, from which the next declaration recovers, and when the nesting of
rules exceeds its allowance, from which nothing recovers.  Neither way gives tokens back.

Every rule of the grammar takes a number of levels it may still descend, which makes the descent
structural; every repetition is bounded by the number of tokens there were to begin with.

## Main definitions

* `Grammar.State`, `Grammar.Parser`: what remains, what was reported, and how reading stops.
* `Grammar.accept?`, `Grammar.expect`: the two ways to take a token.
* `Grammar.resume`: where reading goes on after an error.
-/

namespace Arbor
namespace Grammar

/-- Why a parser stops early. -/
inductive Stop where
  | error
  | tooDeep
deriving DecidableEq

/-- What a parser works on. -/
structure State where
  /-- The tokens not yet taken. -/
  rest : List Token
  /-- The token behind the last one. -/
  ending : Token
  /-- The number of tokens at the start; no repetition runs longer. -/
  bound : Nat
  /-- The reports so far. -/
  reports : Array Diagnostic := #[]

/-- Parsers: they may stop, and keep their state when they do. -/
abbrev Parser := EStateM Stop State

/-- The token reading has come to. -/
def State.current (s : State) : Token :=
  s.rest.headD s.ending

/-- The token reading has come to. -/
def peek : Parser Token :=
  return (← get).current

/-- Whether the next token is of a kind; behind the last token there is no next one. -/
def State.isAt (s : State) (kind : Token.Kind) : Bool :=
  match s.rest with
  | [] => false
  | t :: _ => decide (t.kind = kind)

/-- Whether the next token is of a kind. -/
def isAt (kind : Token.Kind) : Parser Bool :=
  return (← get).isAt kind

/-- Whether no token remains. -/
def atEnd : Parser Bool :=
  return (← get).rest.isEmpty

/-- Takes the next token if its kind passes. -/
def acceptIf? (passes : Token.Kind → Bool) : Parser (Option Token) :=
  modifyGet fun s =>
    match s.rest with
    | [] => (none, s)
    | t :: rest => if passes t.kind then (some t, { s with rest := rest }) else (none, s)

/-- Takes the next token if it is of a kind. -/
def accept? (kind : Token.Kind) : Parser (Option Token) :=
  acceptIf? fun k => decide (k = kind)

/-- Adds a report on a token. -/
def report (token : Token) (error : GrammarError) : Parser Unit :=
  modify fun s => { s with reports := s.reports.push (.grammar token error) }

/-- Reports that something else had to stand here, and stops. -/
def failExpecting {α : Type} (what : String) : Parser α := do
  report (← peek) (.expected what)
  throw .error

/-- Takes the next token, which has to be of a kind. -/
def expect (kind : Token.Kind) (what : String) : Parser Token := do
  match ← accept? kind with
  | some token => pure token
  | none => failExpecting what

/-- A bound on the repetitions of any loop. -/
def bound : Parser Nat :=
  return (← get).bound

/-- Where reading goes on after an error: one token is dropped in any case, and then as many as
it takes to stand behind a semicolon or in front of a word that begins a statement. -/
def resume : List Token → List Token
  | [] => []
  | t :: rest =>
    if t.kind = .semicolon ∨ (rest.head?.any fun next => next.kind.startsStatement) then rest
    else resume rest

/-- Drops what an error spoiled. -/
def recover : Parser Unit :=
  modify fun s => { s with rest := resume s.rest }

/-- Parses items separated by commas, at least one.  From the item number `limit` on each one is
reported, but still read. -/
def separated {α : Type} (limit : Nat) (plural : String) (item : Parser α) :
    Nat → Nat → List α → Parser (List α)
  | 0, _, before => pure before.reverse
  | fuel + 1, count, before => do
    if limit ≤ count then report (← peek) (.tooMany limit plural)
    let next ← item
    match ← accept? .comma with
    | some _ => separated limit plural item fuel (count + 1) (next :: before)
    | none => pure (next :: before).reverse

/-- No list of parameters or arguments may be longer. -/
def listLimit : Nat := 255

/-- A possibly empty list in parentheses, behind the opening one. -/
def listUpToParen {α : Type} (plural : String) (item : Parser α) : Parser (List α) := do
  if ← isAt .rightParen then pure []
  else separated listLimit plural item (← bound) 0 []

/-- Parses items up to a closing brace or the end of the text; an item may come to nothing. -/
def itemsUpToBrace {α : Type} (item : Parser (Option α)) : Nat → List α → Parser (List α)
  | 0, before => pure before.reverse
  | fuel + 1, before => do
    if (← atEnd) || (← isAt .rightBrace) then pure before.reverse
    else
      match ← item with
      | some next => itemsUpToBrace item fuel (next :: before)
      | none => itemsUpToBrace item fuel before

end Grammar
end Arbor
