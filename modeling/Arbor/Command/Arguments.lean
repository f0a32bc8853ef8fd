/-!
# Command-line arguments

`-v` may be repeated and run together, the long options take a value behind an equals sign or as
the next argument and may be shortened as long as they stay unambiguous, options may follow the
script, and behind `--` everything is an operand.  The two long options exclude each other.

## Main definitions

* `Arguments`: the options in effect.
* `Arguments.ofList`: the arguments of a command line.
-/

namespace Arbor

/-- The options that take a file. -/
inductive FileOption where
  | emitAst
  | ast
deriving DecidableEq

/-- How a command line is wrong, or that help was asked for. -/
inductive UsageError where
  | help
  | unrecognized
  | valueMissing
  | valueRefused
  | exclusive
  | scriptMissing
deriving DecidableEq

namespace UsageError

/-- What is wrong with a command line, in words. -/
def message : UsageError → String
  | help => "help requested"
  | unrecognized => "unrecognized arguments"
  | valueMissing => "expected one argument"
  | valueRefused => "ignored explicit argument"
  | exclusive => "argument not allowed with an earlier one"
  | scriptMissing => "missing script; or use --emit-ast/--ast"

end UsageError

/-- One argument, by its form. -/
inductive Argument where
  | verbose (times : Nat)
  | file (option : FileOption) (value : Option String)
  | operand (text : String)
  | separator
  | unknown
  | wrong (error : UsageError)
deriving DecidableEq

namespace Argument

/-- The long options. -/
def longOptions : List (String × Argument) :=
  [("--help", .wrong .help), ("--emit-ast", .file .emitAst none), ("--ast", .file .ast none)]

/-- Splits a text at its first equals sign, if it has one. -/
def splitValue (text : String) : String × Option String :=
  let chars := text.toList
  let name := String.ofList (chars.takeWhile (· != '='))
  match chars.dropWhile (· != '=') with
  | [] => (name, none)
  | _ :: value => (name, some (String.ofList value))

/-- A long option with the value that was attached to it. -/
def withValue : Argument → Option String → Argument
  | .file option _, value => .file option value
  | argument, none => argument
  | _, some _ => .wrong .valueRefused

/-- The long option that a text names or abbreviates, if exactly one is. -/
def long? (text : String) : Option Argument :=
  let (name, value) := splitValue text
  match longOptions.find? fun entry => entry.1 == name with
  | some entry => some (withValue entry.2 value)
  | none =>
    match longOptions.filter fun entry => entry.1.startsWith name with
    | [entry] => some (withValue entry.2 value)
    | _ => none

/-- The flags behind a first `-v`. -/
def verboseTail : Nat → List Char → Argument
  | times, [] => .verbose times
  | times, 'v' :: rest => verboseTail (times + 1) rest
  | _, 'h' :: _ => .wrong .help
  | _, _ => .wrong .valueRefused

/-- Whether a text behind its minus sign is a number. -/
def isNumeral (text : List Char) : Bool :=
  let whole := text.takeWhile Char.isDigit
  match text.dropWhile Char.isDigit with
  | [] => !whole.isEmpty
  | '.' :: fraction => !fraction.isEmpty && fraction.all Char.isDigit
  | _ => false

/-- An argument that begins with a minus sign and is no option. -/
def other (text : String) : Argument :=
  if isNumeral (text.toList.drop 1) || text.contains ' ' then .operand text else .unknown

/-- The form of an argument in front of any separator. -/
def ofText (text : String) : Argument :=
  match text.toList with
  | ['-', '-'] => .separator
  | '-' :: '-' :: _ => (long? text).getD (other text)
  | ['-'] => .operand text
  | '-' :: 'v' :: rest => verboseTail 1 rest
  | '-' :: 'h' :: _ => .wrong .help
  | '-' :: _ => other text
  | _ => .operand text

end Argument

/-- The options in effect. -/
structure Arguments where
  verbosity : Nat := 0
  emitAst : Option String := none
  ast : Option String := none
  script : Option String := none
deriving DecidableEq

namespace Arguments

/-- Sets a file option, which excludes the other one. -/
def setFile (a : Arguments) (option : FileOption) (value : String) : Except UsageError Arguments :=
  match option with
  | .emitAst => if a.ast.isSome then .error .exclusive else .ok { a with emitAst := some value }
  | .ast => if a.emitAst.isSome then .error .exclusive else .ok { a with ast := some value }

/-- Sets the script; there is at most one. -/
def setScript (a : Arguments) (text : String) : Except UsageError Arguments :=
  if a.script.isSome then .error .unrecognized else .ok { a with script := some text }

/-- Takes operands only. -/
def addOperands (a : Arguments) : List String → Except UsageError Arguments
  | [] => .ok a
  | text :: rest => do addOperands (← a.setScript text) rest

/-- Takes arguments in order. -/
def addAll (a : Arguments) : List String → Except UsageError Arguments
  | [] => .ok a
  | text :: rest =>
    match Argument.ofText text with
    | .verbose times => addAll { a with verbosity := a.verbosity + times } rest
    | .file option (some value) => do addAll (← a.setFile option value) rest
    | .file option none =>
      match rest with
      | [] => .error .valueMissing
      | value :: after =>
        match Argument.ofText value with
        | .operand value => do addAll (← a.setFile option value) after
        | _ => .error .valueMissing
    | .operand text => do addAll (← a.setScript text) rest
    | .separator => a.addOperands rest
    | .unknown => .error .unrecognized
    | .wrong error => .error error

/-- The options on a command line. -/
def ofList (arguments : List String) : Except UsageError Arguments :=
  addAll {} arguments

end Arguments
end Arbor
