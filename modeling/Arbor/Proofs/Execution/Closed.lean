import Arbor.Execution

/-!
# Properties of everything the evaluator does

The evaluator is put together from the operations of the machine with the means of sequencing, and
from nothing else.  So a property of computations that holds of the operations and is kept by
sequencing holds of every evaluation, call and execution.  Such a property is called closed.

## Main definitions

* `Execution.Closed`: closed properties.

## Main statements

* `Closed.evaluate`, `Closed.execute`, `Closed.runAll`: they hold of all that the evaluator does.
-/

namespace Arbor
namespace Execution

open Eval

/-- A property that holds of the operations of the machine and is kept by sequencing. -/
structure Closed (P : (α : Type) → Eval α → Prop) : Prop where
  pure {α : Type} (a : α) : P α (Pure.pure a)
  throw {α : Type} (abort : Abort) : P α (throw abort)
  bind {α β : Type} {x : Eval α} {k : α → Eval β} (first : P α x) (second : ∀ a, P β (k a)) :
    P β (x >>= k)
  catchOverflow (line : Int) {body : Eval Value} (inner : P Value body) :
    P Value (catchOverflow line body)
  /-- A computation may look at the frames and the fields. -/
  look {α β : Type} (view : Frames Value → Array (Bindings Value) → α) {k : α → Eval β}
    (rest : ∀ a, P β (k a)) : P β (get >>= fun m => k (view m.frames m.fields))
  note (event : Event) : P Unit (note event)
  print (value : Value) : P Unit (print value)
  readClock : P Value readClock
  newFrame (enclosing : FrameId) : P FrameId (newFrame enclosing)
  define (frame : FrameId) (name : String) (value : Value) : P Unit (define frame name value)
  freshId : P Nat freshId
  newInstance (ofClass : Class) : P Instance (newInstance ofClass)
  setProperty (i : Instance) (name : String) (value : Value) : P Unit (setProperty i name value)

namespace Closed

variable {P : (α : Type) → Eval α → Prop} (closed : Closed P)

include closed

/-! ### Operations made of others -/

/-- A failure at a line is a throw, so a closed property has nothing to say about the cause. -/
theorem fail {α : Type} (line : Int) (cause : RuntimeCause) : P α (fail line cause) :=
  closed.throw _

/-- An operation that can only meet a fault of the interpreter itself either returns its value or
throws; it does not touch the machine. -/
theorem orFault {α : Type} : ∀ result : Except Fault α, P α (orFault result)
  | .ok value => closed.pure value
  | .error fault => closed.throw (.fault fault)

/-- An operation that can fail in the program either returns its value or fails at the line
given. -/
theorem orFail {α : Type} (line : Int) : ∀ result : Except RuntimeCause α, P α (orFail line result)
  | .ok value => closed.pure value
  | .error cause => closed.fail line cause

/-- An operator returns its value, fails at its own line, or meets a fault. -/
theorem orFailure (operator : Token) : ∀ result : Except Operator.Failure Value,
    P Value (orFailure operator result)
  | .ok value => closed.pure value
  | .error (.error cause) => closed.fail operator.line cause
  | .error (.fault fault) => closed.throw (.fault fault)

/-- A variable is read at its distance by looking at the frames once; which of the faults this may
be is decided by what was seen. -/
theorem getAt (frame : FrameId) (distance : Int) (name : String) :
    P Value (getAt frame distance name) :=
  closed.look (fun frames _ => frames.getAt frame distance name) fun result => closed.orFault result

/-- An assignment at a distance first looks for the frame, and only then defines the name there.  So
it is made of a look and a definition, also where it ends in a fault in between. -/
theorem assignAt (frame : FrameId) (distance : Int) (name : String) (value : Value) :
    P Unit (assignAt frame distance name value) :=
  closed.look (fun frames _ => frames.holderAt frame distance name) fun result =>
    closed.bind (closed.orFault result) fun holder => closed.define holder.1 name value

/-- A global is read by looking at the outermost frame, without walking along any links. -/
theorem getGlobal (name : Token) : P Value (getGlobal name) :=
  closed.look (fun frames _ => frames.get Machine.globals name.lexeme) fun result =>
    closed.orFail name.line result

/-- An assignment by name looks along the links for a frame that has the name, and defines it there
or fails at the line of the name. -/
theorem assign (frame : FrameId) (name : Token) (value : Value) :
    P Unit (assign frame name value) := by
  let rest (holder? : Option FrameId) : Eval Unit :=
    holder?.elim (Eval.fail name.line (.undefinedVariable name.lexeme)) fun holder =>
      Eval.define holder name.lexeme value
  have each : ∀ holder?, P Unit (rest holder?) := by
    intro holder?
    cases holder? with
    | some holder => exact closed.define holder name.lexeme value
    | none => exact closed.fail name.line _
  have same : Eval.assign frame name value
      = get >>= fun m => rest (m.frames.holder? frame name.lexeme) := by
    unfold Eval.assign
    congr 1
    funext m
    cases m.frames.holder? frame name.lexeme <;> rfl
  rw [same]
  exact closed.look (fun frames _ => frames.holder? frame name.lexeme) each

/-- What a resolved reference reads is one of two operations, by whether it has a distance. -/
theorem lookUp (frame : FrameId) (name : Token) : ∀ hops, P Value (lookUp frame name hops)
  | some hops => closed.getAt frame hops name.lexeme
  | none => closed.getGlobal name

/-- What a resolved assignment does is one of two operations, by whether it has a distance. -/
theorem store (frame : FrameId) (name : Token) (value : Value) : ∀ hops,
    P Unit (store frame name value hops)
  | some hops => closed.assignAt frame hops name.lexeme value
  | none => closed.assign Machine.globals name value

/-- A closure differs from others by a number of its own; taking that number is all that making it
does. -/
theorem newClosure (decl : FunDecl) (frame : FrameId) (isInitializer : Bool) :
    P Closure (newClosure decl frame isInitializer) :=
  closed.bind closed.freshId fun _ => closed.pure _

/-- A class differs from others by a number of its own, like a closure. -/
theorem newClass (name : String) (superclass : Option Class) (methods : Bindings Closure) :
    P Class (newClass name superclass methods) :=
  closed.bind closed.freshId fun _ => closed.pure _

/-- A method is bound by making a frame, defining the receiver in it, and making a closure over
it. -/
theorem bindThis (c : Closure) (receiver : Value) : P Closure (bindThis c receiver) :=
  closed.bind (closed.newFrame _) fun _ => closed.bind (closed.define _ _ _) fun _ =>
    closed.newClosure _ _ _

/-- A property is a field if there is one, and otherwise a method that is bound on the spot.  The
fields are only looked at. -/
theorem getProperty (i : Instance) (name : Token) : P Value (getProperty i name) := by
  let inherited : Eval Value :=
    (i.ofClass.findMethod? name.lexeme).elim
      (Eval.fail name.line (.undefinedProperty name.lexeme)) fun method => do
        return .closure (← Eval.bindThis method (.object i))
  have bound : P Value inherited := by
    dsimp only [inherited]
    cases i.ofClass.findMethod? name.lexeme with
    | some method => exact closed.bind (closed.bindThis _ _) fun _ => closed.pure _
    | none => exact closed.fail _ _
  have each : ∀ field? : Option Value, P Value (field?.elim inherited Pure.pure) := by
    intro field?
    cases field? with
    | some value => exact closed.pure value
    | none => exact bound
  have same : Eval.getProperty i name
      = get >>= fun m => ((m.fields[i.id]?.getD {}).get? name.lexeme).elim inherited Pure.pure := by
    unfold Eval.getProperty Machine.fieldsOf
    congr 1
    funext m
    cases m.fields[i.id]? with
    | none =>
      dsimp only [inherited]
      cases i.ofClass.findMethod? name.lexeme <;> rfl
    | some fields =>
      dsimp only [Option.getD_some]
      cases fields.get? name.lexeme with
      | some value => rfl
      | none =>
        dsimp only [inherited]
        cases i.ofClass.findMethod? name.lexeme <;> rfl
  rw [same]
  exact closed.look (fun _ fields => (fields[i.id]?.getD {}).get? name.lexeme) each

/-- Parameters are defined one by one; the induction is on both lists, and where one of them ends
the rest of the other is left alone. -/
theorem bindParams (frame : FrameId) : ∀ (params : List Token) (arguments : List Value),
    P Unit (bindParams frame params arguments)
  | _ :: params, _ :: arguments =>
    closed.bind (closed.define _ _ _) fun _ => bindParams frame params arguments
  | [], _ => closed.pure _
  | _ :: _, [] => closed.pure _

/-! ### Parts of the walks -/

/-- Statements run in order keep the property if each one does; the induction is on the
statements.  One that does not complete normally ends the list, which is a return and has the
property as well. -/
theorem inOrder {run : Stmt → Eval Completion} (each : ∀ s, P Completion (run s)) :
    ∀ statements, P Completion (inOrder run statements) := by
  intro statements
  induction statements with
  | nil => exact closed.pure _
  | cons s rest ih =>
    refine closed.bind (each s) fun completion => ?_
    cases completion with
    | normal => exact ih
    | _ => exact closed.pure _

/-- Arguments evaluated in order keep the property if each one does. -/
theorem allValues {value : Expr → Eval Value} (each : ∀ e, P Value (value e)) :
    ∀ es, P (List Value) (allValues value es) := by
  intro es
  induction es with
  | nil => exact closed.pure _
  | cons e rest ih =>
    exact closed.bind (each e) fun _ => closed.bind ih fun _ => closed.pure _

/-- A loop keeps the property if its condition and its body do; the induction is on the turns left.
That these run out is a stop like others, and no case of its own for any property. -/
theorem repeatWhile {condition : Eval Value} {body : Eval Completion} (test : P Value condition)
    (turn : P Completion body) : ∀ turns, P Completion (repeatWhile condition body turns)
  | 0 => closed.throw _
  | turns + 1 => by
    refine closed.bind test fun value => ?_
    split
    · refine closed.bind turn fun completion => ?_
      cases completion with
      | broke | returned => exact closed.pure _
      | normal | continued => exact repeatWhile test turn turns
    · exact closed.pure _

/-- The outcome of a call is the value returned or nil and, of an initializer, the receiver, which
is read from the frame that its closure was made in. -/
theorem outcomeOf (c : Closure) (completion : Completion) : P Value (outcomeOf c completion) := by
  unfold Execution.outcomeOf
  split
  · exact closed.getAt _ _ _
  · cases completion with
    | normal | returned => exact closed.pure _
    | broke | continued => exact closed.throw _

/-- A call is checked, then noted, and then run with stack overflow caught at its parenthesis. -/
theorem callWith {invoke : Eval Value} (inner : P Value invoke) (callee : Value)
    (arguments : List Value) (paren : Token) :
    P Value (callWith invoke callee arguments paren) := by
  unfold Execution.callWith
  split
  · exact closed.fail _ _
  · split
    · exact closed.bind (closed.note _) fun _ => closed.catchOverflow _ inner
    · exact closed.fail _ _

/-- A method of a superclass is found from two frames, the one that holds the superclass and the one
just inside it that holds the receiver; both are read before the method is bound. -/
theorem superMethod (frame : FrameId) (method : Token) : ∀ hops,
    P Value (superMethod frame method hops)
  | none => closed.throw _
  | some hops => by
    refine closed.bind (closed.getAt _ _ _) fun parent => ?_
    refine closed.bind (closed.getAt _ _ _) fun receiver => ?_
    split
    · split
      · exact closed.bind (closed.bindThis _ _) fun _ => closed.pure _
      · exact closed.fail _ _
    · exact closed.throw _

/-- A property of anything but an instance is a failure at the name. -/
theorem propertyOf (object : Value) (name : Token) : P Value (propertyOf object name) := by
  unfold Execution.propertyOf
  split
  · exact closed.getProperty _ _
  · exact closed.fail _ _

/-- Methods become closures over one frame, in the order they are declared in. -/
theorem makeMethods (frame : FrameId) : ∀ (decls : List FunDecl) (methods : Bindings Closure),
    P (Bindings Closure) (makeMethods frame decls methods)
  | [], _ => closed.pure _
  | _ :: rest, _ => closed.bind (closed.newClosure _ _ _) fun _ => makeMethods frame rest _

/-- The methods of a class with a superclass share a frame of their own, in which the superclass is
defined; without one they share the frame that the class is declared in. -/
theorem methodFrame (frame : FrameId) : ∀ superclass, P FrameId (methodFrame frame superclass)
  | none => closed.pure _
  | some _ => closed.bind (closed.newFrame _) fun _ => closed.bind (closed.define _ _ _) fun _ =>
      closed.pure _

/-- A class is stored under its name, which is defined before its methods are made and so is there
to be assigned. -/
theorem makeClass (frame : FrameId) (name : Token) (superclass : Option Class)
    (decls : List FunDecl) : P Unit (makeClass frame name superclass decls) :=
  closed.bind (closed.define _ _ _) fun _ => closed.bind (closed.methodFrame _ _) fun _ =>
    closed.bind (closed.makeMethods _ _ _) fun _ => closed.bind (closed.newClass _ _ _) fun _ =>
      closed.bind (closed.assign _ _ _) fun _ => closed.note _

/-- What is named as a superclass has to be a class; anything else fails at the name. -/
theorem requireClass (name : Token) (value : Value) : P Class (requireClass name value) := by
  unfold Execution.requireClass
  split
  · exact closed.pure _
  · exact closed.fail _ _

omit closed

/-! ### The walks -/

/-- The property holds of all walks with a given room. -/
structure Walks (P : (α : Type) → Eval α → Prop) (turns room : Nat) : Prop where
  evaluate : ∀ e f, P Value (evaluate turns room e f)
  call : ∀ callee arguments paren, P Value (call turns room callee arguments paren)
  invoke : ∀ callee arguments, P Value (invoke turns room callee arguments)
  runBlock : ∀ statements f, P Completion (runBlock turns room statements f)
  runLoop : ∀ condition body f, P Completion (runLoop turns room condition body f)
  declareClass : ∀ name superclass methods f,
    P Unit (declareClass turns room name superclass methods f)
  execute : ∀ s f, P Completion (execute turns room s f)

variable {turns room : Nat}

/-- One level of evaluation, by the form of the expression: each form is operations in sequence, and
the walks inside it have less room. -/
theorem evaluate_succ (closed : Closed P) (walks : Walks P turns room) (e : Expr) (f : FrameId) :
    P Value (Execution.evaluate turns (room + 1) e f) := by
  cases e with
  | literal => exact closed.pure _
  | grouping inner => exact walks.evaluate inner f
  | var | this => exact closed.lookUp _ _ _
  | assign name value =>
    exact closed.bind (walks.evaluate value f) fun _ => closed.bind (closed.store _ _ _ _) fun _ =>
      closed.pure _
  | unary operator right => exact closed.bind (walks.evaluate right f) fun _ => closed.orFailure _ _
  | binary left operator right =>
    exact closed.bind (walks.evaluate left f) fun _ => closed.bind (walks.evaluate right f) fun _ =>
      closed.orFailure _ _
  | logical left operator right =>
    refine closed.bind (walks.evaluate left f) fun value => ?_
    split
    · exact closed.pure _
    · exact walks.evaluate right f
  | call callee paren arguments =>
    exact closed.bind (walks.evaluate callee f) fun _ =>
      closed.bind (closed.allValues (fun e => walks.evaluate e f) arguments) fun _ =>
        walks.call _ _ _
  | getField object name =>
    exact closed.bind (walks.evaluate object f) fun _ => closed.propertyOf _ _
  | setField object name value =>
    refine closed.bind (walks.evaluate object f) fun target => ?_
    split
    · exact closed.bind (walks.evaluate value f) fun _ =>
        closed.bind (closed.setProperty _ _ _) fun _ => closed.pure _
    · exact closed.fail _ _
  | super => exact closed.superMethod _ _ _
  | misfit => exact closed.throw _

/-- One level of invocation, by what is invoked.  A class with an initializer invokes it in turn,
which is why invocations are among the walks. -/
theorem invoke_succ (closed : Closed P) (walks : Walks P turns room) (callee : Value)
    (arguments : List Value) : P Value (Execution.invoke turns (room + 1) callee arguments) := by
  cases callee with
  | closure c =>
    exact closed.bind (closed.newFrame _) fun _ => closed.bind (closed.bindParams _ _ _) fun _ =>
      closed.bind (walks.runBlock _ _) fun _ => closed.outcomeOf _ _
  | cls c =>
    refine closed.bind (closed.newInstance c) fun made => ?_
    split
    · exact closed.bind (closed.bindThis _ _) fun _ => closed.bind (walks.invoke _ _) fun _ =>
        closed.pure _
    · exact closed.pure _
  | native n =>
    cases n
    exact closed.readClock
  | _ => exact closed.pure _

/-- One level of a class declaration: the superclass is evaluated before anything is made. -/
theorem declareClass_succ (closed : Closed P) (walks : Walks P turns room) (name : Token)
    (superclass : Option Superclass) (methods : List FunDecl) (f : FrameId) :
    P Unit (Execution.declareClass turns (room + 1) name superclass methods f) := by
  cases superclass with
  | none => exact closed.makeClass _ _ _ _
  | some parent =>
    exact closed.bind (walks.evaluate _ f) fun _ => closed.bind (closed.requireClass _ _) fun _ =>
      closed.makeClass _ _ _ _

/-- One level of execution, by the form of the statement.  Each form is a few effects, which the
property is closed under, and walks of the parts, which have it by the assumption; so the room is
the measure that all the walks go down together. -/
theorem execute_succ (closed : Closed P) (walks : Walks P turns room) (s : Stmt) (f : FrameId) :
    P Completion (Execution.execute turns (room + 1) s f) := by
  refine closed.bind (closed.note _) fun _ => ?_
  cases s with
  | expr e => exact closed.bind (walks.evaluate e f) fun _ => closed.pure _
  | print e =>
    exact closed.bind (walks.evaluate e f) fun _ => closed.bind (closed.print _) fun _ =>
      closed.pure _
  | varDecl name initializer =>
    cases initializer with
    | none =>
      exact closed.bind (closed.define _ _ _) fun _ => closed.bind (closed.note _) fun _ =>
        closed.pure _
    | some e =>
      exact closed.bind (walks.evaluate e f) fun _ => closed.bind (closed.define _ _ _) fun _ =>
        closed.bind (closed.note _) fun _ => closed.pure _
  | block statements => exact closed.bind (closed.newFrame _) fun _ => walks.runBlock _ _
  | ifElse condition thenBranch elseBranch =>
    refine closed.bind (walks.evaluate condition f) fun value => ?_
    split
    · exact walks.execute _ _
    · cases elseBranch with
      | some branch => exact walks.execute _ _
      | none => exact closed.pure _
  | loop condition body => exact walks.runLoop _ _ _
  | funDecl decl =>
    exact closed.bind (closed.newClosure _ _ _) fun _ => closed.bind (closed.define _ _ _) fun _ =>
      closed.bind (closed.note _) fun _ => closed.pure _
  | classDecl name superclass methods =>
    exact closed.bind (walks.declareClass _ _ _ _) fun _ => closed.pure _
  | ret keyword value =>
    cases value with
    | none => exact closed.pure _
    | some e => exact closed.bind (walks.evaluate e f) fun _ => closed.pure _
  | brk | cont => exact closed.pure _
  | bare | misfit => exact closed.throw _

/-- The walks have a closed property at every room, by induction on the room: without any they do
nothing but run out of stack, and with more each of them is one level around walks that have
less. -/
theorem walks (closed : Closed P) (turns : Nat) : ∀ room, Walks P turns room
  | 0 => ⟨fun _ _ => closed.throw _, fun _ _ _ => closed.throw _, fun _ _ => closed.throw _,
      fun _ _ => closed.throw _, fun _ _ _ => closed.throw _, fun _ _ _ _ => closed.throw _,
      fun _ _ => closed.throw _⟩
  | room + 1 =>
    have inner := walks closed turns room
    { evaluate := closed.evaluate_succ inner
      call := fun callee arguments _ => closed.callWith (inner.invoke callee arguments) _ _ _
      invoke := closed.invoke_succ inner
      runBlock := fun statements f => closed.inOrder (fun s => inner.execute s f) statements
      runLoop := fun condition body f =>
        closed.repeatWhile (inner.evaluate condition f) (inner.execute body f) turns
      declareClass := closed.declareClass_succ inner
      execute := closed.execute_succ inner }

/-- A closed property holds of the statements of every program. -/
theorem runAll (closed : Closed P) (turns room : Nat) (statements : List Stmt) :
    P Unit (Execution.runAll turns room statements) := by
  induction statements with
  | nil => exact closed.pure _
  | cons s rest ih =>
    refine closed.bind ((closed.walks turns room).execute s _) fun completion => ?_
    split
    · exact ih
    · exact closed.throw _

end Closed

end Execution
end Arbor
