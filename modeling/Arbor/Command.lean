import Arbor.Command.Arguments
import Arbor.Command.FilePath
import Arbor.Json.Reader
import Arbor.Json.Writer
import Arbor.Session
import Arbor.Session.Stored

/-!
# The command line

Runs a script, stores the tree of a script, or runs a stored tree.  A command needs at most one
file; given what that file holds, all that follows is determined: the texts on both outputs,
the files to write, and the exit status.

## Main definitions

* `Command.ofArguments`: the command of a command line.
* `Command.perform`: what a command does, given the text of the file it reads.
-/

namespace Arbor

/-- What to do. -/
inductive Command where
  | script (path : FilePath) (verbosity : Nat)
  | emitAst (path : FilePath)
  | ast (path : FilePath) (verbosity : Nat)
deriving DecidableEq

/-- A failure that no report covers. -/
inductive Crash where
  | notJson
  | tree (error : TreeError)
  | fault (fault : Fault)
  | outOfTurns
deriving DecidableEq

/-- What a command has done. -/
structure Performed where
  /-- The exit status, or what crashed. -/
  status : Except Crash Nat
  stdout : String := ""
  stderr : String := ""
  /-- The files written, in order. -/
  written : List (FilePath × String) := []

namespace Command

/-- An option with an empty value counts as not given. -/
def given? : Option String → Option FilePath
  | some text => if text = "" then none else some (.ofText text)
  | none => none

/-- The command of a command line. -/
def ofArguments (a : Arguments) : Except UsageError Command :=
  match given? a.emitAst, given? a.ast, given? a.script with
  | some path, _, _ => .ok (emitAst path)
  | none, some path, _ => .ok (ast path a.verbosity)
  | none, none, some path => .ok (script path a.verbosity)
  | none, none, none => .error .scriptMissing

/-- The command of a list of arguments. -/
def ofList (arguments : List String) : Except UsageError Command := do
  ofArguments (← Arguments.ofList arguments)

/-- The file a command reads. -/
def input : Command → FilePath
  | script path _ => path
  | emitAst path => path
  | ast path _ => path

/-- The file a trace is written to. -/
def traceFile : FilePath := .ofText "debug.txt"

/-- The characters of a file behind those in `before`, which are in reverse order; a carriage
return, with or without a newline behind it, becomes a newline. -/
def unifyNewlines : List Char → List Char → List Char
  | [], before => before.reverse
  | '\r' :: '\n' :: rest, before => unifyNewlines rest ('\n' :: before)
  | '\r' :: rest, before => unifyNewlines rest ('\n' :: before)
  | c :: rest, before => unifyNewlines rest (c :: before)

/-- The text of a file with its line ends unified. -/
def decode (contents : String) : String :=
  String.ofList (unifyNewlines contents.toList [])

/-- The reports as they appear on the error output. -/
def reportText (reports : Array Diagnostic) : String :=
  reports.foldl (fun text report => text ++ report.text ++ "\n") ""

/-- What a run has done, given the session and its verdict. -/
def performedRun (verbosity : Nat) (s : Session) (verdict : Verdict) : Performed where
  status :=
    match verdict with
    | .ok => .ok 0
    | .failed => .ok 1
    | .fault fault => .error (.fault fault)
    | .outOfTurns => .error .outOfTurns
  stdout := s.printed
  stderr := reportText s.reports
  written := if verbosity = 0 then [] else [(traceFile, s.machine.trace.text)]

/-- Runs the program in a text on a new machine. -/
def performText (limits : Limits) (clock : Clock) (verbosity : Nat) (text : String) : Performed :=
  let (s, verdict) := (Session.start clock verbosity).runText limits text
  performedRun verbosity s verdict

/-- Stores the tree of a script beside it, unless something was reported on the script. -/
def performEmit (path : FilePath) (text : String) : Performed :=
  let reading := Program.ofText text
  if reading.reports.isEmpty then
    let target := path.addToName ".ast.json"
    { status := .ok 0
      stdout := target.text ++ "\n"
      written := [(target, reading.program.toTree.toJson.indented)] }
  else { status := .ok 1, stderr := reportText reading.reports }

/-- Runs a stored tree on a new machine. -/
def performAst (limits : Limits) (clock : Clock) (verbosity : Nat) (text : String) : Performed :=
  match Json.read? text with
  | none => { status := .error .notJson }
  | some json =>
    match Tree.ofJson json with
    | .error error => { status := .error (.tree error) }
    | .ok tree =>
      let (s, verdict) := (Session.start clock verbosity).runTree limits tree
      performedRun verbosity s verdict

/-- What a command does, given what its file holds if there is such a file. -/
def perform (limits : Limits) (clock : Clock) (command : Command) (contents : Option String) :
    Performed :=
  match contents with
  | none =>
    { status := .ok 1, stderr := "Error: file " ++ command.input.text ++ " not found\n" }
  | some contents =>
    let text := decode contents
    match command with
    | script _ verbosity => performText limits clock verbosity text
    | emitAst path => performEmit path text
    | ast _ verbosity => performAst limits clock verbosity text

end Command
end Arbor
