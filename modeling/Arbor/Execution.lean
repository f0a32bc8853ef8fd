import Arbor.Machine

/-!
# Execution

Statements and expressions on the machine.  A statement completes normally or with a jump, which
the statements around it hand outward until a loop or a call takes it.

Two allowances make execution total.  `room` is how many evaluations may still nest; it shrinks
with every nested one, and running out of it inside a call is a stack overflow of the program,
blamed on the innermost call.  `turns` bounds the turns of each loop.

## Main definitions

* `Execution.evaluate`, `Execution.execute`: the two mutually recursive walks.
* `Execution.call`: calls of functions, classes and natives.
* `Execution.runAll`: the statements of a program, in order.
-/

namespace Arbor

/-- How a statement completes. -/
inductive Completion where
  | normal
  | returned (value : Value)
  | broke
  | continued

namespace Completion

/-- The jump a completion makes, if it makes one. -/
def jump? : Completion → Option Jump
  | normal => none
  | returned _ => some .ret
  | broke => some .brk
  | continued => some .cont

end Completion

namespace Execution

open Eval

/-! ### Sequences, loops and calls, given how their parts run -/

/-- Runs statements in order until one makes a jump. -/
def inOrder (run : Stmt → Eval Completion) : List Stmt → Eval Completion
  | [] => pure .normal
  | s :: rest => do
    match ← run s with
    | .normal => inOrder run rest
    | jump => pure jump

/-- Evaluates expressions in order. -/
def allValues (value : Expr → Eval Value) : List Expr → Eval (List Value)
  | [] => pure []
  | e :: rest => do
    let first ← value e
    return first :: (← allValues value rest)

/-- Repeats `body` as long as `condition` is true, for at most the given number of turns.  The
loop takes the jumps of its own `break` and `continue`, a return goes on outward. -/
def repeatWhile (condition : Eval Value) (body : Eval Completion) : Nat → Eval Completion
  | 0 => throw .outOfTurns
  | turns + 1 => do
    if (← condition).isTruthy then
      match ← body with
      | .broke => pure .normal
      | .returned value => pure (.returned value)
      | .normal | .continued => repeatWhile condition body turns
    else pure .normal

/-- What the call of a function comes to when its body has completed. -/
def outcomeOf (c : Closure) (completion : Completion) : Eval Value :=
  if c.isInitializer then getAt c.frame 0 "this"
  else
    match completion with
    | .normal => pure .nil
    | .returned value => pure value
    | .broke => throw (.fault (.escapedFunction .brk c.name))
    | .continued => throw (.fault (.escapedFunction .cont c.name))

/-- Turns a lack of room into a stack overflow on a line. -/
def catchOverflow (line : Int) (body : Eval Value) : Eval Value :=
  tryCatch body fun
    | .tooDeep => fail line .stackOverflow
    | abort => throw abort

/-- Checks that a value can be called with some arguments, and calls it with `invoke`. -/
def callWith (invoke : Eval Value) (callee : Value) (arguments : List Value) (paren : Token) :
    Eval Value := do
  match callee.arity? with
  | none => fail paren.line .notCallable
  | some expected =>
    if arguments.length = expected then do
      note (.called callee arguments.length paren.line)
      catchOverflow paren.line invoke
    else fail paren.line (.arity expected arguments.length)

/-! ### References and properties -/

/-- Whether the left operand of a logical operator is already the result. -/
def settles (operator : Token) (left : Value) : Bool :=
  if operator.kind = .kwOr then left.isTruthy else !left.isTruthy

/-- The method that `super` names, bound to the instance that `this` names; `this` is held one
frame inside the frame that holds `super`. -/
def superMethod (frame : FrameId) (method : Token) : Option Nat → Eval Value
  | none => throw (.fault .superUnresolved)
  | some hops => do
    let parent ← getAt frame hops "super"
    let receiver ← getAt frame ((hops : Int) - 1) "this"
    match parent with
    | .cls c =>
      match c.findMethod? method.lexeme with
      | some found => return .closure (← bindThis found receiver)
      | none => fail method.line (.undefinedProperty method.lexeme)
    | _ => throw (.fault (.slot .noSuchPart))

/-- The property of a value that has to be an instance. -/
def propertyOf (object : Value) (name : Token) : Eval Value :=
  match object with
  | .object i => getProperty i name
  | _ => fail name.line .noProperties

/-! ### Classes -/

/-- Makes the methods of a class in a frame; the last of several with one name counts. -/
def makeMethods (frame : FrameId) : List FunDecl → Bindings Closure → Eval (Bindings Closure)
  | [], methods => pure methods
  | decl :: rest, methods => do
    let name := decl.name.lexeme
    let method ← newClosure decl frame (name == "init")
    makeMethods frame rest (methods.put name method)

/-- The frame in which the methods of a class are made: one that holds `super` if there is a
superclass. -/
def methodFrame (frame : FrameId) : Option Class → Eval FrameId
  | none => pure frame
  | some parent => do
    let inner ← newFrame frame
    define inner "super" (.cls parent)
    pure inner

/-- Makes a class and binds its name, which is bound already while the methods are made. -/
def makeClass (frame : FrameId) (name : Token) (superclass : Option Class)
    (decls : List FunDecl) : Eval Unit := do
  define frame name.lexeme .nil
  let inner ← methodFrame frame superclass
  let methods ← makeMethods inner decls {}
  let made ← newClass name.lexeme superclass methods
  assign frame name (.cls made)
  note (.definedClass name.lexeme (superclass.map Class.name) methods.entries.length)

/-- The class that the value of a superclass has to be. -/
def requireClass (name : Token) : Value → Eval Class
  | .cls c => pure c
  | _ => fail name.line .superclassNotClass

/-! ### The two walks -/

mutual

/-- Evaluates an expression in a frame. -/
def evaluate (turns : Nat) : Nat → Expr → FrameId → Eval Value
  | 0, _, _ => throw .tooDeep
  | room + 1, expression, frame =>
    match expression with
    | .literal value => pure (.ofConstant value)
    | .grouping inner => evaluate turns room inner frame
    | .var name hops => lookUp frame name hops
    | .assign name value hops => do
      let value ← evaluate turns room value frame
      store frame name value hops
      pure value
    | .unary operator right => do
      let right ← evaluate turns room right frame
      orFailure operator (Operator.applyUnary operator right)
    | .binary left operator right => do
      let left ← evaluate turns room left frame
      let right ← evaluate turns room right frame
      orFailure operator (Operator.applyBinary operator left right)
    | .logical left operator right => do
      let left ← evaluate turns room left frame
      if settles operator left then pure left else evaluate turns room right frame
    | .call callee paren arguments => do
      let callee ← evaluate turns room callee frame
      let arguments ← allValues (fun e => evaluate turns room e frame) arguments
      call turns room callee arguments paren
    | .getField object name => do
      let object ← evaluate turns room object frame
      propertyOf object name
    | .setField object name value => do
      match ← evaluate turns room object frame with
      | .object i => do
        let value ← evaluate turns room value frame
        setProperty i name.lexeme value
        pure value
      | _ => fail name.line .noFields
    | .this keyword hops => lookUp frame keyword hops
    | .super _ method hops => superMethod frame method hops
    | .misfit what => throw (.fault (.ofMisfit .evaluate what))
termination_by structural room => room

/-- Calls a value with arguments; what goes wrong is blamed on the closing parenthesis. -/
def call (turns : Nat) : Nat → Value → List Value → Token → Eval Value
  | 0, _, _, _ => throw .tooDeep
  | room + 1, callee, arguments, paren =>
    callWith (invoke turns room callee arguments) callee arguments paren
termination_by structural room => room

/-- Runs what a call calls: the body of a function, or the making of an instance. -/
def invoke (turns : Nat) : Nat → Value → List Value → Eval Value
  | 0, _, _ => throw .tooDeep
  | room + 1, callee, arguments =>
    match callee with
    | .closure c => do
      let frame ← newFrame c.frame
      bindParams frame c.decl.params arguments
      let completion ← runBlock turns room c.decl.body frame
      outcomeOf c completion
    | .cls c => do
      let made ← newInstance c
      match c.initializer? with
      | some init => do
        let bound ← bindThis init (.object made)
        let _ ← invoke turns room (.closure bound) arguments
        pure (.object made)
      | none => pure (.object made)
    | .native .clock => readClock
    | _ => pure .nil
termination_by structural room => room

/-- Runs statements in order in a frame. -/
def runBlock (turns : Nat) : Nat → List Stmt → FrameId → Eval Completion
  | 0, _, _ => throw .tooDeep
  | room + 1, statements, frame => inOrder (fun s => execute turns room s frame) statements
termination_by structural room => room

/-- Runs a loop in a frame. -/
def runLoop (turns : Nat) : Nat → Expr → Stmt → FrameId → Eval Completion
  | 0, _, _, _ => throw .tooDeep
  | room + 1, condition, body, frame =>
    repeatWhile (evaluate turns room condition frame) (execute turns room body frame) turns
termination_by structural room => room

/-- Makes the class a declaration describes. -/
def declareClass (turns : Nat) :
    Nat → Token → Option Superclass → List FunDecl → FrameId → Eval Unit
  | 0, _, _, _, _ => throw .tooDeep
  | room + 1, name, superclass, methods, frame =>
    match superclass with
    | none => makeClass frame name none methods
    | some parent => do
      let value ← evaluate turns room parent.value frame
      let parent ← requireClass parent.name value
      makeClass frame name (some parent) methods
termination_by structural room => room

/-- Executes a statement in a frame. -/
def execute (turns : Nat) : Nat → Stmt → FrameId → Eval Completion
  | 0, _, _ => throw .tooDeep
  | room + 1, statement, frame => do
    note (.executed statement.found)
    match statement with
    | .expr expression => do
      let _ ← evaluate turns room expression frame
      pure .normal
    | .print expression => do
      let value ← evaluate turns room expression frame
      print value
      pure .normal
    | .varDecl name none => do
      define frame name.lexeme .nil
      note (.declared name.lexeme .nil)
      pure .normal
    | .varDecl name (some initializer) => do
      let value ← evaluate turns room initializer frame
      define frame name.lexeme value
      note (.declared name.lexeme value)
      pure .normal
    | .block statements => do
      let inner ← newFrame frame
      runBlock turns room statements inner
    | .ifElse condition thenBranch elseBranch => do
      let value ← evaluate turns room condition frame
      if value.isTruthy then execute turns room thenBranch frame
      else
        match elseBranch with
        | some branch => execute turns room branch frame
        | none => pure .normal
    | .loop condition body => runLoop turns room condition body frame
    | .funDecl decl => do
      let made ← newClosure decl frame false
      define frame decl.name.lexeme (.closure made)
      note (.definedFunction decl.name.lexeme)
      pure .normal
    | .classDecl name superclass methods => do
      declareClass turns room name superclass methods frame
      pure .normal
    | .ret _ none => pure (.returned .nil)
    | .ret _ (some value) => do
      let value ← evaluate turns room value frame
      pure (.returned value)
    | .brk _ => pure .broke
    | .cont _ => pure .continued
    | .bare expression => throw (.fault (.unexpected .execute expression.found))
    | .misfit what => throw (.fault (.ofMisfit .execute what))
termination_by structural room => room

end

/-- Executes the statements of a program among the globals.  No jump may leave one of them. -/
def runAll (turns room : Nat) : List Stmt → Eval Unit
  | [] => pure ()
  | s :: rest => do
    match (← execute turns room s Machine.globals).jump? with
    | none => runAll turns room rest
    | some jump => throw (.fault (.escapedToTop jump))

end Execution
end Arbor
