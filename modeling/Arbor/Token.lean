/-!
# Tokens

A token is a slice of program text together with its kind, the value it denotes if it is a
literal, and the line on which it ends.  Kinds have names: punctuation and keywords are named
by their spelling, the other kinds by a word in capitals.  A kind that no program text can
produce, found in a stored tree, is kept as `Kind.other`.
-/

namespace Arbor

/-- A value that can be written down in a program. -/
inductive Constant where
  | nil
  | bool (b : Bool)
  | number (x : Float)
  | text (s : String)
deriving Inhabited

namespace Token

/-- The kinds of tokens. -/
inductive Kind where
  | leftParen | rightParen | leftBrace | rightBrace
  | comma | dot | minus | plus | semicolon | star | slash
  | bang | bangEqual | equal | equalEqual
  | greater | greaterEqual | less | lessEqual
  | identifier | string | number
  | kwAnd | kwBreak | kwClass | kwContinue | kwElse | kwFalse | kwFor | kwFun | kwIf
  | kwNil | kwOr | kwPrint | kwReturn | kwSuper | kwThis | kwTrue | kwVar | kwWhile
  | endOfText
  | other (name : String)
deriving DecidableEq, Inhabited

namespace Kind

/-- The name of a kind. -/
def name : Kind → String
  | leftParen => "("
  | rightParen => ")"
  | leftBrace => "\x7b"
  | rightBrace => "\x7d"
  | comma => ","
  | dot => "."
  | minus => "-"
  | plus => "+"
  | semicolon => ";"
  | star => "*"
  | slash => "/"
  | bang => "!"
  | bangEqual => "!="
  | equal => "="
  | equalEqual => "=="
  | greater => ">"
  | greaterEqual => ">="
  | less => "<"
  | lessEqual => "<="
  | identifier => "IDENT"
  | string => "STRING"
  | number => "NUMBER"
  | kwAnd => "and"
  | kwBreak => "break"
  | kwClass => "class"
  | kwContinue => "continue"
  | kwElse => "else"
  | kwFalse => "false"
  | kwFor => "for"
  | kwFun => "fun"
  | kwIf => "if"
  | kwNil => "nil"
  | kwOr => "or"
  | kwPrint => "print"
  | kwReturn => "return"
  | kwSuper => "super"
  | kwThis => "this"
  | kwTrue => "true"
  | kwVar => "var"
  | kwWhile => "while"
  | endOfText => "EOF"
  | other name => name

/-- The kinds whose tokens are reserved words. -/
def keywords : List Kind :=
  [kwAnd, kwBreak, kwClass, kwContinue, kwElse, kwFalse, kwFor, kwFun, kwIf,
    kwNil, kwOr, kwPrint, kwReturn, kwSuper, kwThis, kwTrue, kwVar, kwWhile]

/-- Every kind that program text can produce. -/
def all : List Kind :=
  [leftParen, rightParen, leftBrace, rightBrace, comma, dot, minus, plus, semicolon, star, slash,
    bang, bangEqual, equal, equalEqual, greater, greaterEqual, less, lessEqual,
    identifier, string, number] ++ keywords ++ [endOfText]

/-- The kind of a given name. -/
def ofName (name : String) : Kind :=
  (all.find? fun kind => kind.name == name).getD (other name)

/-- The kind of a word: a keyword if the whole word is one, an identifier otherwise. -/
def ofWord (word : String) : Kind :=
  (keywords.find? fun kind => kind.name == word).getD identifier

/-- The kinds that begin a statement and nothing else; recovery stops in front of them. -/
def startsStatement : Kind → Bool
  | kwClass | kwFun | kwVar | kwFor | kwIf | kwWhile | kwPrint | kwReturn | kwBreak
  | kwContinue => true
  | _ => false

end Kind
end Token

/-- A token: its kind, its spelling, the value it denotes, and the line on which it ends. -/
structure Token where
  kind : Token.Kind
  lexeme : String
  literal : Constant := .nil
  line : Int
deriving Inhabited

namespace Token

/-- The token that stands behind the last one. -/
def ending (line : Int) : Token :=
  ⟨.endOfText, "", .nil, line⟩

end Token
end Arbor
