import Arbor.Frames
import Arbor.Operator
import Arbor.Trace
import Arbor.Value

/-!
# The machine

All that a running program can change: its frames, the fields of its instances, what it printed,
and the trace.  The evaluator touches the machine only through the operations of this module.

Frame `Machine.globals` holds the globals and is there from the start.  Time comes from outside: a
machine is given all that its clock will show, and counts how often it was read.

## Main definitions

* `Clock`: what a clock shows, reading by reading.
* `Machine`: the state of a run.
* `Eval`: computations on the machine, and the ways in which they stop early.
-/

namespace Arbor

/-- What a clock shows, in milliseconds, each time it is read.  Nothing is known of the readings:
they may repeat, jump ahead or go back. -/
@[ext]
structure Clock where
  reading : Nat → Float

/-- The clock that shows a given time first, and a millisecond more each time it is read. -/
def Clock.ticking (first : Float) : Clock :=
  ⟨fun n => first + Float.ofNat n⟩

/-- A time stands for the clock that ticks from then on. -/
instance : Coe Float Clock :=
  ⟨Clock.ticking⟩

/-- The state of a run. -/
structure Machine where
  frames : Frames Value
  /-- The fields of each instance, by its identity. -/
  fields : Array (Bindings Value) := #[]
  /-- How many functions and classes have been made. -/
  made : Nat := 0
  /-- The lines printed so far. -/
  output : Array String := #[]
  clock : Clock
  /-- How often the clock has been read. -/
  readings : Nat := 0
  trace : Trace := {}

/-- Why an evaluation stops early. -/
inductive Abort where
  /-- The program made an error. -/
  | error (error : RuntimeError)
  /-- The machine met a broken assumption. -/
  | fault (fault : Fault)
  /-- Evaluation nests too deeply. -/
  | tooDeep
  /-- A loop took more turns than it was allowed. -/
  | outOfTurns
deriving DecidableEq

/-- Computations on the machine.  Stopping early keeps what was done. -/
abbrev Eval := EStateM Abort Machine

namespace Machine

/-- The frame of the globals. -/
def globals : FrameId := 0

/-- A machine that has run nothing: the globals hold the native functions. -/
def fresh (clock : Clock) (traceLevel : Nat) : Machine where
  frames := (Frames.empty.make none).define globals Native.clock.name (.native .clock)
  clock := clock
  trace := { level := traceLevel }

/-- The bindings of the globals. -/
def globalBindings (m : Machine) : Bindings Value :=
  m.frames.bindings globals

/-- The names of the globals. -/
def globalNames (m : Machine) : List String :=
  m.globalBindings.names

/-- The fields of an instance. -/
def fieldsOf (m : Machine) (i : Instance) : Bindings Value :=
  match m.fields[i.id]? with
  | some fields => fields
  | none => {}

/-- Adds an event to the trace. -/
def note (m : Machine) (event : Event) : Machine :=
  { m with trace := m.trace.add event }

/-- All that was printed, line by line. -/
def printed (m : Machine) : String :=
  m.output.foldl (fun text line => text ++ line ++ "\n") ""

end Machine

namespace Eval

/-! ### Stopping early -/

/-- Stops with an error of the program, blamed on a line. -/
def fail {α : Type} (line : Int) (cause : RuntimeCause) : Eval α :=
  throw (.error ⟨cause, line⟩)

/-- The value of a result that may be a fault. -/
def orFault {α : Type} : Except Fault α → Eval α
  | .ok value => pure value
  | .error fault => throw (.fault fault)

/-- The value of a result that may be an error of the program. -/
def orFail {α : Type} (line : Int) : Except RuntimeCause α → Eval α
  | .ok value => pure value
  | .error cause => fail line cause

/-- The value of an operation, whose errors are blamed on the operator. -/
def orFailure (operator : Token) : Except Operator.Failure Value → Eval Value
  | .ok value => pure value
  | .error (.error cause) => fail operator.line cause
  | .error (.fault fault) => throw (.fault fault)

/-! ### Trace, output and time -/

/-- Adds an event to the trace. -/
def note (event : Event) : Eval Unit :=
  modify fun m => m.note event

/-- Prints a value on a line of its own. -/
def print (value : Value) : Eval Unit :=
  modify fun m => { m with output := m.output.push value.shown }

/-- Reads the clock. -/
def readClock : Eval Value :=
  modifyGet fun m =>
    (.number (m.clock.reading m.readings), { m with readings := m.readings + 1 })

/-! ### Variables -/

/-- Makes a frame inside another. -/
def newFrame (enclosing : FrameId) : Eval FrameId :=
  modifyGet fun m => (m.frames.size, { m with frames := m.frames.make (some enclosing) })

/-- Binds a name in a frame. -/
def define (frame : FrameId) (name : String) (value : Value) : Eval Unit :=
  modify fun m => { m with frames := m.frames.define frame name value }

/-- The value of a name at a distance. -/
def getAt (frame : FrameId) (distance : Int) (name : String) : Eval Value := do
  orFault ((← get).frames.getAt frame distance name)

/-- Changes the value of a name at a distance. -/
def assignAt (frame : FrameId) (distance : Int) (name : String) (value : Value) : Eval Unit := do
  let (holder, _) ← orFault ((← get).frames.holderAt frame distance name)
  define holder name value

/-- The value of a name among the globals. -/
def getGlobal (name : Token) : Eval Value := do
  orFail name.line ((← get).frames.get Machine.globals name.lexeme)

/-- Changes the value of a name in the nearest frame that holds it. -/
def assign (frame : FrameId) (name : Token) (value : Value) : Eval Unit := do
  match (← get).frames.holder? frame name.lexeme with
  | some holder => define holder name.lexeme value
  | none => fail name.line (.undefinedVariable name.lexeme)

/-- The value of a reference: at its distance, or among the globals if it has none. -/
def lookUp (frame : FrameId) (name : Token) : Option Nat → Eval Value
  | some hops => getAt frame hops name.lexeme
  | none => getGlobal name

/-- Changes what a reference refers to. -/
def store (frame : FrameId) (name : Token) (value : Value) : Option Nat → Eval Unit
  | some hops => assignAt frame hops name.lexeme value
  | none => assign Machine.globals name value

/-! ### Functions, classes and instances -/

/-- A number that no function or class has yet. -/
def freshId : Eval Nat :=
  modifyGet fun m => (m.made, { m with made := m.made + 1 })

/-- Makes a function in a frame. -/
def newClosure (decl : FunDecl) (frame : FrameId) (isInitializer : Bool) : Eval Closure := do
  return ⟨← freshId, decl, frame, isInitializer⟩

/-- Makes a class. -/
def newClass (name : String) (superclass : Option Class) (methods : Bindings Closure) :
    Eval Class := do
  return ⟨← freshId, name, superclass, methods⟩

/-- Makes an instance without fields. -/
def newInstance (ofClass : Class) : Eval Instance :=
  modifyGet fun m => (⟨m.fields.size, ofClass⟩, { m with fields := m.fields.push {} })

/-- The function with `this` bound to a value, in a frame of its own. -/
def bindThis (c : Closure) (receiver : Value) : Eval Closure := do
  let frame ← newFrame c.frame
  define frame "this" receiver
  newClosure c.decl frame c.isInitializer

/-- A field of an instance, or else a method of its class bound to it. -/
def getProperty (i : Instance) (name : Token) : Eval Value := do
  match ((← get).fieldsOf i).get? name.lexeme with
  | some value => pure value
  | none =>
    match i.ofClass.findMethod? name.lexeme with
    | some method => return .closure (← bindThis method (.object i))
    | none => fail name.line (.undefinedProperty name.lexeme)

/-- Changes or adds a field of an instance. -/
def setProperty (i : Instance) (name : String) (value : Value) : Eval Unit :=
  modify fun m => { m with fields := m.fields.modify i.id fun fields => fields.put name value }

/-- Binds parameters to arguments, in order. -/
def bindParams (frame : FrameId) : List Token → List Value → Eval Unit
  | param :: params, argument :: arguments => do
    define frame param.lexeme argument
    bindParams frame params arguments
  | _, _ => pure ()

end Eval
end Arbor
