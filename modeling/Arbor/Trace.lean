import Arbor.Scope
import Arbor.Value

/-!
# Traces

A run can be traced in growing detail: the stages of the pipeline from level one, definitions
from level two, resolved distances and calls from level three, executed statements from level
four.  Every event knows the least level that shows it, so a trace at one level is the part of a
more detailed trace that this level shows.
-/

namespace Arbor

/-- Something a trace can show. -/
inductive Event where
  | scanned (tokens : Nat)
  | grammarErrors
  | resolving (statements : Nat)
  | scopeErrors
  | interpreting
  | finished (ok : Bool)
  | declared (name : String) (value : Value)
  | definedFunction (name : String)
  | definedClass (name : String) (superclass : Option String) (methods : Nat)
  | resolved (resolution : Scope.Resolution)
  | called (callee : Value) (arguments : Nat) (line : Int)
  | executed (statement : Foreign)

namespace Event

/-- The least level that shows an event. -/
def level : Event → Nat
  | scanned _ | grammarErrors | resolving _ | scopeErrors | interpreting | finished _ => 1
  | declared _ _ | definedFunction _ | definedClass _ _ _ => 2
  | resolved _ | called _ _ _ => 3
  | executed _ => 4

/-- How a superclass is shown behind the name of a class. -/
def inheritance : Option String → String
  | some parent => " < " ++ parent
  | none => ""

/-- The line of a trace that shows an event. -/
def text : Event → String
  | scanned tokens => "scanned " ++ toString tokens ++ " tokens"
  | grammarErrors => "syntax errors; not running"
  | resolving statements => "resolving " ++ toString statements ++ " statements"
  | scopeErrors => "resolution errors; not running"
  | interpreting => "interpreting"
  | finished true => "finished: ok"
  | finished false => "finished: runtime error"
  | declared name value =>
    "declare " ++ name ++ ": " ++ value.typeName ++ " = " ++ value.shown
  | definedFunction name => "define function " ++ name
  | definedClass name superclass methods =>
    "define class " ++ name ++ inheritance superclass ++ " with " ++ toString methods ++ " methods"
  | resolved r =>
    "resolve " ++ r.kind.name ++ " at line " ++ toString r.line ++ ": depth " ++ toString r.hops
  | called callee arguments line =>
    "call " ++ callee.shown ++ " with " ++ toString arguments ++ " arguments at line " ++
      toString line
  | executed statement => "execute " ++ statement.name

end Event

/-- A trace: its level, zero for none, the events shown so far, and whether it still listens. -/
structure Trace where
  level : Nat := 0
  isOpen : Bool := true
  events : Array Event := #[]

namespace Trace

/-- Whether a trace shows an event now. -/
def shows (t : Trace) (event : Event) : Bool :=
  t.isOpen && decide (event.level ≤ t.level)

/-- Adds an event if the trace shows it. -/
def add (t : Trace) (event : Event) : Trace :=
  if t.shows event then { t with events := t.events.push event } else t

/-- Ends a trace; nothing is added later. -/
def close (t : Trace) : Trace :=
  { t with isOpen := false }

/-- The text of a trace. -/
def text (t : Trace) : String :=
  t.events.foldl (fun text event => text ++ event.text ++ "\n") ""

end Trace
end Arbor
