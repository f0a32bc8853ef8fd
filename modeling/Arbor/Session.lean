import Arbor.Execution
import Arbor.Grammar.Statement

/-!
# Sessions

A session is one machine on which programs run one after the other, with the reports on all of
them.  A program runs only if nothing has been reported on its text or on that of an earlier
one: from then on the session runs nothing.  The trace ends with the first program.

## Main definitions

* `Session.runText`, `Session.run`: a program from text, a program already read.
* `Session.interpret`: statements as they are, without resolving them and without any check.
-/

namespace Arbor

/-- The allowances of a run. -/
structure Limits where
  /-- How deep evaluation may nest. -/
  room : Nat := 9980
  /-- How many turns a loop may take. -/
  turns : Nat := 1000000000000000

/-- How a run ends. -/
inductive Verdict where
  /-- Nothing was reported. -/
  | ok
  /-- Something was reported. -/
  | failed
  /-- A broken assumption ended the run. -/
  | fault (fault : Fault)
  /-- A loop went beyond its allowance. -/
  | outOfTurns
deriving DecidableEq

/-- A machine with the reports on the programs it was given. -/
structure Session where
  machine : Machine
  reports : Array Diagnostic := #[]
  /-- How many references have been resolved. -/
  resolutions : Nat := 0

namespace Session

/-- A session that has run nothing. -/
def start (clock : Clock) (traceLevel : Nat) : Session where
  machine := .fresh clock traceLevel

/-- Whether something was reported on the text of a program. -/
def hadError (s : Session) : Bool :=
  s.reports.any fun report => !report.isRuntime

/-- Whether a run ended in an error. -/
def hadRuntimeError (s : Session) : Bool :=
  s.reports.any Diagnostic.isRuntime

/-- Adds reports. -/
def addReports (s : Session) (reports : Array Diagnostic) : Session :=
  { s with reports := s.reports ++ reports }

/-- Adds an event to the trace. -/
def note (s : Session) (event : Event) : Session :=
  { s with machine := s.machine.note event }

/-- Adds events to the trace. -/
def noteAll (s : Session) (events : Array Event) : Session :=
  { s with machine := events.foldl Machine.note s.machine }

/-- Ends the trace. -/
def closeTrace (s : Session) : Session :=
  { s with machine := { s.machine with trace := s.machine.trace.close } }

/-- Executes statements, and reports the error that ended them, if one did. -/
def interpret (limits : Limits) (s : Session) (statements : List Stmt) : Session × Verdict :=
  match (Execution.runAll limits.turns limits.room statements).run s.machine with
  | .ok _ machine => ({ s with machine := machine }, .ok)
  | .error (.error error) machine =>
    ({ s with machine := machine, reports := s.reports.push (.runtime error) }, .failed)
  | .error (.fault fault) machine => ({ s with machine := machine }, .fault fault)
  | .error .tooDeep machine => ({ s with machine := machine }, .fault .tooDeep)
  | .error .outOfTurns machine => ({ s with machine := machine }, .outOfTurns)

/-- Notes how a run came out; a run that was broken off leaves no note. -/
def noteVerdict (s : Session) : Verdict → Session
  | .ok => s.note (.finished true)
  | .failed => s.note (.finished false)
  | .fault _ | .outOfTurns => s

/-- Accounts for what resolving a program has found. -/
def addResolved (s : Session) (r : Resolved) : Session :=
  let s := s.noteAll (r.resolutions.map Event.resolved)
  { s.addReports r.reports with resolutions := s.resolutions + r.resolutions.size }

/-- Executes a resolved program unless something was reported. -/
def runResolved (limits : Limits) (s : Session) (p : Program) : Session × Verdict :=
  if s.hadError then (s.note .scopeErrors, .failed)
  else
    let (s, verdict) := (s.note .interpreting).interpret limits p.body
    (s.noteVerdict verdict, verdict)

/-- Resolves and executes a program. -/
def run (limits : Limits) (s : Session) (p : Program) : Session × Verdict :=
  let s := s.note (.resolving p.body.length)
  let resolved := p.resolve s.machine.globalNames
  let s := s.addResolved resolved
  let (s, verdict) :=
    match resolved.outcome with
    | .error fault => (s, Verdict.fault fault)
    | .ok program => s.runResolved limits program
  (s.closeTrace, verdict)

/-- Reads, resolves and executes the program in a text. -/
def runText (limits : Limits) (s : Session) (text : String) : Session × Verdict :=
  let scan := Scan.ofText text
  let s := s.note (.scanned scan.size)
  let reading := scan.parse
  let s := s.addReports reading.reports
  if s.hadError then ((s.note .grammarErrors).closeTrace, .failed)
  else s.run limits reading.program

/-- All that was printed in a session. -/
def printed (s : Session) : String :=
  s.machine.printed

/-- The texts of the reports from a given one on. -/
def reportTexts (s : Session) (first : Nat) : List String :=
  (s.reports.toList.drop first).map Diagnostic.text

end Session
end Arbor
