import Arbor.Bindings
import Arbor.Diagnostic
import Arbor.Fault

/-!
# Lexical scopes

Resolution walks a program once, in order, with the scopes around the current place in hand.
Each reference to a local name is given the number of scopes between it and the innermost one
that declares the name so far; a reference that no local scope declares stays open and means a
global.  Misuses of names and jumps are reported, and none of them stops the walk.

A block is a scope; so is a function body together with its parameters; the methods of a class
stand in a scope that holds `this`, which stands in one that holds `super` if there is a
superclass.

## Main definitions

* `Scope.State`: the scopes, the top-level names, the reports and the resolutions so far.
* `Program.resolve`: the resolved program.
-/

namespace Arbor
namespace Scope

/-- What sort of function surrounds a place. -/
inductive FunctionKind where
  | function
  | initializer
  | method
deriving DecidableEq

/-- What sort of class surrounds a place. -/
inductive ClassKind where
  | plain
  | derived
deriving DecidableEq

/-- What surrounds a place, apart from scopes. -/
structure Context where
  function : Option FunctionKind := none
  inClass : Option ClassKind := none
  inLoop : Bool := false

/-- A reference that was resolved: what it is, the name, its line, and the distance found. -/
structure Resolution where
  kind : NodeKind
  name : String
  line : Int
  hops : Nat

/-- What resolution works on.  A scope maps each declared name to whether it is ready for use. -/
structure State where
  /-- The local scopes, the innermost first. -/
  scopes : List (Bindings Bool) := []
  /-- The names declared at the top level, before or by this program. -/
  globals : Bindings Bool := {}
  reports : Array Diagnostic := #[]
  resolutions : Array Resolution := #[]

/-- Resolution may meet a misfit, and then stops. -/
abbrev Resolve := EStateM Fault State

/-! ### Names -/

/-- Adds a report on a token. -/
def report (token : Token) (error : ScopeError) : Resolve Unit :=
  modify fun s => { s with reports := s.reports.push (.scope token error) }

/-- Adds a report on a token under a condition. -/
def reportIf (condition : Bool) (token : Token) (error : ScopeError) : Resolve Unit :=
  if condition then report token error else pure ()

/-- Makes a name known, though not yet ready.  Names may be declared again at the top level. -/
def declare (name : Token) : Resolve Unit := do
  let s ← get
  match s.scopes with
  | [] =>
    if s.globals.contains name.lexeme then pure ()
    else modify fun s => { s with globals := s.globals.put name.lexeme false }
  | scope :: outer => do
    reportIf (scope.contains name.lexeme) name .alreadyDeclared
    modify fun s => { s with scopes := scope.put name.lexeme false :: outer }

/-- Makes a declared name ready. -/
def define (name : Token) : Resolve Unit :=
  modify fun s =>
    match s.scopes with
    | [] => { s with globals := s.globals.put name.lexeme true }
    | scope :: outer => { s with scopes := scope.put name.lexeme true :: outer }

/-- How many scopes lie between a place and the innermost scope that declares a name. -/
def distance? (scopes : List (Bindings Bool)) (name : String) : Option Nat :=
  scopes.findIdx? fun scope => scope.contains name

/-- Resolves a reference and records the distance found. -/
def link (kind : NodeKind) (name : Token) : Resolve (Option Nat) :=
  modifyGet fun s =>
    match distance? s.scopes name.lexeme with
    | some hops =>
      let found : Resolution := ⟨kind, name.lexeme, name.line, hops⟩
      (some hops, { s with resolutions := s.resolutions.push found })
    | none => (none, s)

/-- Whether a name is declared right here but not ready. -/
def State.isUnready (s : State) (name : String) : Bool :=
  match s.scopes with
  | [] => s.globals.get? name == some false
  | scope :: _ => scope.get? name == some false

/-- Runs `body` inside a new scope with some names ready. -/
def within {α : Type} (ready : List String) (body : Resolve α) : Resolve α := do
  let scope := ready.foldl (fun scope name => scope.put name true) Bindings.empty
  modify fun s => { s with scopes := scope :: s.scopes }
  let result ← body
  modify fun s => { s with scopes := s.scopes.tail }
  pure result

/-- Declares parameters and makes them ready. -/
def declareAll : List Token → Resolve Unit
  | [] => pure ()
  | name :: rest => do
    declare name
    define name
    declareAll rest

/-! ### Expressions -/

/-- What is wrong with `this` here, if anything. -/
def thisError? (context : Context) : Option ScopeError :=
  match context.inClass with
  | none => some .thisOutsideClass
  | some _ => none

/-- What is wrong with `super` here, if anything. -/
def superError? (context : Context) : Option ScopeError :=
  match context.inClass with
  | none => some .superOutsideClass
  | some .plain => some .superWithoutSuperclass
  | some .derived => none

/-- Resolves a keyword reference unless something is wrong with it, which is reported. -/
def linkUnless (error? : Option ScopeError) (kind : NodeKind) (keyword : Token) :
    Resolve (Option Nat) :=
  match error? with
  | some error => do
    report keyword error
    pure none
  | none => link kind keyword

mutual

/-- Resolves an expression. -/
def expr (context : Context) : Expr → Resolve Expr
  | .literal value => pure (.literal value)
  | .grouping inner => return .grouping (← expr context inner)
  | .var name _ => do
    reportIf ((← get).isUnready name.lexeme) name .ownInitializer
    return .var name (← link .var name)
  | .assign name value _ => do
    let value ← expr context value
    return .assign name value (← link .assign name)
  | .unary operator right => return .unary operator (← expr context right)
  | .binary left operator right => do
    let left ← expr context left
    return .binary left operator (← expr context right)
  | .logical left operator right => do
    let left ← expr context left
    return .logical left operator (← expr context right)
  | .call callee paren arguments => do
    let callee ← expr context callee
    return .call callee paren (← exprs context arguments)
  | .getField object name => return .getField (← expr context object) name
  | .setField object name value => do
    let value ← expr context value
    return .setField (← expr context object) name value
  | .this keyword _ => return .this keyword (← linkUnless (thisError? context) .this keyword)
  | .super keyword method _ =>
    return .super keyword method (← linkUnless (superError? context) .super keyword)
  | .misfit what => throw (.ofMisfit .resolve what)

/-- Resolves expressions in order. -/
def exprs (context : Context) : List Expr → Resolve (List Expr)
  | [] => pure []
  | e :: rest => do
    let e ← expr context e
    return e :: (← exprs context rest)

end

/-- Resolves an expression that may be left out. -/
def expr? (context : Context) : Option Expr → Resolve (Option Expr)
  | none => pure none
  | some e => some <$> expr context e

/-! ### Statements -/

/-- Resolves the superclass of a class, checking that it is not the class itself. -/
def superclass (context : Context) (name : Token) (parent : Superclass) : Resolve Superclass := do
  reportIf (parent.name.lexeme == name.lexeme) parent.name .inheritsFromItself
  return { parent with value := ← expr { context with inClass := some .derived } parent.value }

/-- Methods called `init` are initializers. -/
def methodKind (name : Token) : FunctionKind :=
  if name.lexeme = "init" then .initializer else .method

mutual

/-- Resolves a statement. -/
def stmt (context : Context) : Stmt → Resolve Stmt
  | .expr expression => return .expr (← expr context expression)
  | .print expression => return .print (← expr context expression)
  | .varDecl name initializer => do
    declare name
    let initializer ← expr? context initializer
    define name
    pure (.varDecl name initializer)
  | .block statements => return .block (← within [] (stmts context statements))
  | .ifElse condition thenBranch none => do
    let condition ← expr context condition
    return .ifElse condition (← stmt context thenBranch) none
  | .ifElse condition thenBranch (some elseBranch) => do
    let condition ← expr context condition
    let thenBranch ← stmt context thenBranch
    return .ifElse condition thenBranch (some (← stmt context elseBranch))
  | .loop condition body => do
    let condition ← expr context condition
    return .loop condition (← stmt { context with inLoop := true } body)
  | .funDecl decl => do
    declare decl.name
    define decl.name
    return .funDecl (← function context .function decl)
  | .classDecl name none members => do
    declare name
    define name
    let inner := { context with inClass := some .plain }
    return .classDecl name none (← within ["this"] (methods inner members))
  | .classDecl name (some parent) members => do
    declare name
    define name
    let inner := { context with inClass := some .derived }
    let parent ← superclass context name parent
    let members ← within ["super"] (within ["this"] (methods inner members))
    pure (.classDecl name (some parent) members)
  | .ret keyword value => do
    reportIf context.function.isNone keyword .returnAtTop
    reportIf (value.isSome && context.function == some .initializer) keyword .returnFromInitializer
    return .ret keyword (← expr? context value)
  | .brk keyword => do
    reportIf (!context.inLoop) keyword .breakOutsideLoop
    pure (.brk keyword)
  | .cont keyword => do
    reportIf (!context.inLoop) keyword .continueOutsideLoop
    pure (.cont keyword)
  | .bare expression => return .bare (← expr context expression)
  | .misfit what => throw (.ofMisfit .resolve what)

/-- Resolves statements in order. -/
def stmts (context : Context) : List Stmt → Resolve (List Stmt)
  | [] => pure []
  | s :: rest => do
    let s ← stmt context s
    return s :: (← stmts context rest)

/-- Resolves a function; the loops around it do not reach into its body. -/
def function (context : Context) (kind : FunctionKind) : FunDecl → Resolve FunDecl
  | ⟨name, params, body⟩ => do
    let inner := { context with function := some kind, inLoop := false }
    let body ← within [] (do
      declareAll params
      stmts inner body)
    pure ⟨name, params, body⟩

/-- Resolves the methods of a class in order. -/
def methods (context : Context) : List FunDecl → Resolve (List FunDecl)
  | [] => pure []
  | decl :: rest => do
    let decl ← function context (methodKind decl.name) decl
    return decl :: (← methods context rest)

end

end Scope

/-- What came of resolving a program: the resolved program unless a misfit was met, and what was
reported and resolved up to then. -/
structure Resolved where
  outcome : Except Fault Program
  reports : Array Diagnostic
  resolutions : Array Scope.Resolution

namespace Program

/-- Resolves a program in which the given names are global already. -/
def resolve (globals : List String) (p : Program) : Resolved :=
  let known := globals.foldl (fun known name => known.put name true) Bindings.empty
  match (Scope.stmts {} p.body).run { globals := known } with
  | .ok body s => ⟨.ok ⟨body⟩, s.reports, s.resolutions⟩
  | .error fault s => ⟨.error fault, s.reports, s.resolutions⟩

end Program
end Arbor
