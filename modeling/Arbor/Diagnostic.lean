import Arbor.Token

/-!
# Diagnostics

Everything a program's author is told.  Each report carries its cause as a value; the wording
is decided here and nowhere else.  Lexical, grammatical and scoping reports keep a program from
running, a runtime error ends a run that had begun.
-/

namespace Arbor

/-- What can be wrong with the characters of a program. -/
inductive LexicalError where
  | unexpectedCharacter
  | unterminatedString
deriving DecidableEq

namespace LexicalError

/-- The wording of a lexical error. -/
def message : LexicalError → String
  | unexpectedCharacter => "Unexpected character."
  | unterminatedString => "Unterminated string."

end LexicalError

/-- What can be wrong with the order of tokens. -/
inductive GrammarError where
  /-- Something else had to stand here. -/
  | expected (what : String)
  /-- A list of parameters or arguments is longer than `limit`. -/
  | tooMany (limit : Nat) (what : String)
  | invalidTarget
  | tooDeep
deriving DecidableEq

namespace GrammarError

/-- The wording of a grammar error. -/
def message : GrammarError → String
  | expected what => "Expect " ++ what ++ "."
  | tooMany limit what => "Can't have more than " ++ toString limit ++ " " ++ what ++ "."
  | invalidTarget => "Invalid assignment target."
  | tooDeep => "Too much nesting."

end GrammarError

/-- What can be wrong with the use of names and jumps. -/
inductive ScopeError where
  | ownInitializer
  | alreadyDeclared
  | returnAtTop
  | returnFromInitializer
  | breakOutsideLoop
  | continueOutsideLoop
  | thisOutsideClass
  | superOutsideClass
  | superWithoutSuperclass
  | inheritsFromItself
deriving DecidableEq

namespace ScopeError

/-- The wording of a scope error. -/
def message : ScopeError → String
  | ownInitializer => "Can't read local variable in its own initializer."
  | alreadyDeclared => "Already a variable with this name in this scope."
  | returnAtTop => "Can't return from top-level code."
  | returnFromInitializer => "Can't return a value from an initializer."
  | breakOutsideLoop => "Can't use 'break' outside of a loop."
  | continueOutsideLoop => "Can't use 'continue' outside of a loop."
  | thisOutsideClass => "Can't use 'this' outside of a class."
  | superOutsideClass => "Can't use 'super' outside of a class."
  | superWithoutSuperclass => "Can't use 'super' in a class with no superclass."
  | inheritsFromItself => "A class can't inherit from itself."

end ScopeError

/-- What can go wrong while a program runs. -/
inductive RuntimeCause where
  | undefinedVariable (name : String)
  | undefinedProperty (name : String)
  | superclassNotClass
  | notCallable
  | arity (expected got : Nat)
  | operandNotNumber
  | operandsNotNumbers
  | operandsNotAddable
  | divisionByZero
  | noProperties
  | noFields
  | stackOverflow
deriving DecidableEq

namespace RuntimeCause

/-- The wording of a runtime error. -/
def message : RuntimeCause → String
  | undefinedVariable name => "Undefined variable '" ++ name ++ "'."
  | undefinedProperty name => "Undefined property '" ++ name ++ "'."
  | superclassNotClass => "Superclass must be a class."
  | notCallable => "Can only call functions and classes."
  | arity expected got =>
    "Expected " ++ toString expected ++ " arguments but got " ++ toString got ++ "."
  | operandNotNumber => "Operand must be a number."
  | operandsNotNumbers => "Operands must be numbers."
  | operandsNotAddable => "Operands must be two numbers or two strings."
  | divisionByZero => "Cannot divide by 0."
  | noProperties => "Only instances have properties."
  | noFields => "Only instances have fields."
  | stackOverflow => "Stack overflow."

end RuntimeCause

/-- A runtime error: its cause and the line it is blamed on. -/
structure RuntimeError where
  cause : RuntimeCause
  line : Int
deriving DecidableEq

/-- One report. -/
inductive Diagnostic where
  | lexical (line : Int) (error : LexicalError)
  | grammar (token : Token) (error : GrammarError)
  | scope (token : Token) (error : ScopeError)
  | runtime (error : RuntimeError)

namespace Diagnostic

/-- Whether the report is about a run and not about the program's text. -/
def isRuntime : Diagnostic → Bool
  | runtime _ => true
  | _ => false

/-- How a report names the token it is about. -/
def locator (token : Token) : String :=
  if token.kind = .endOfText then " at end" else " at '" ++ token.lexeme ++ "'"

/-- The text of a report on the program's text. -/
def located (line : Int) (place message : String) : String :=
  "[line " ++ toString line ++ "] Error" ++ place ++ ": " ++ message

/-- The text of a report. -/
def text : Diagnostic → String
  | lexical line error => located line "" error.message
  | grammar token error => located token.line (locator token) error.message
  | scope token error => located token.line (locator token) error.message
  | runtime error => error.cause.message ++ "\n[line " ++ toString error.line ++ "]"

end Diagnostic
end Arbor
