import Arbor.Scope

/-!
# Properties of everything the resolver does

Like the evaluator the resolver is put together from few operations by sequencing.  Expressions need
less of them than statements: they report, look names up and record distances, but declare nothing
and open no scope.  So there are two kinds of closed properties, those that hold of the resolution of
all expressions, and those that hold of the resolution of all statements as well.

## Main definitions

* `Scope.Passive`: properties that hold of the operations expressions need.
* `Scope.Closed`: properties that hold of all operations.

## Main statements

* `Passive.expr`: a passive property holds of all expressions.
* `Closed.stmts`: a closed property holds of all statements.
-/

namespace Arbor
namespace Scope

/-- A property that holds of reporting and looking up and is kept by sequencing. -/
structure Passive (P : (α : Type) → Resolve α → Prop) : Prop where
  pure {α : Type} (a : α) : P α (Pure.pure a)
  throw {α : Type} (fault : Fault) : P α (throw fault)
  bind {α β : Type} {x : Resolve α} {k : α → Resolve β} (first : P α x) (second : ∀ a, P β (k a)) :
    P β (x >>= k)
  report (token : Token) (error : ScopeError) : P Unit (report token error)
  link (kind : NodeKind) (name : Token) : P (Option Nat) (link kind name)
  /-- A name that is not ready here is reported. -/
  ready (name : Token) {α : Type} {k : Resolve α} (rest : P α k) :
    P α (get >>= fun s => reportIf (s.isUnready name.lexeme) name .ownInitializer >>= fun _ => k)

/-- A passive property that also holds of declaring names and is kept by opening a scope. -/
structure Closed (P : (α : Type) → Resolve α → Prop) : Prop extends Passive P where
  declare (name : Token) : P Unit (declare name)
  define (name : Token) : P Unit (define name)
  within {α : Type} (names : List String) {body : Resolve α} (inner : P α body) :
    P α (within names body)

namespace Passive

variable {P : (α : Type) → Resolve α → Prop} (passive : Passive P)

include passive

/-- A report under a condition is a report or nothing. -/
theorem reportIf (condition : Bool) (token : Token) (error : ScopeError) :
    P Unit (reportIf condition token error) := by
  cases condition with
  | false => exact passive.pure _
  | true => exact passive.report token error

/-- A keyword is linked like a name, or reported. -/
theorem linkUnless (kind : NodeKind) (keyword : Token) : ∀ error? : Option ScopeError,
    P (Option Nat) (linkUnless error? kind keyword)
  | none => passive.link kind keyword
  | some _ => passive.bind (passive.report _ _) fun _ => passive.pure _

omit passive

mutual

/-- A passive property holds of the resolution of every expression.  The induction is on the
expression, whose resolution is made of those of its parts, of links and of reports. -/
theorem expr (passive : Passive P) (context : Context) : ∀ e : Expr, P Expr (expr context e)
  | .literal _ => passive.pure _
  | .grouping inner => passive.bind (expr passive context inner) fun _ => passive.pure _
  | .var name _ =>
    passive.ready name (passive.bind (passive.link _ name) fun _ => passive.pure _)
  | .assign name value _ =>
    passive.bind (expr passive context value) fun _ =>
      passive.bind (passive.link _ name) fun _ => passive.pure _
  | .unary _ right => passive.bind (expr passive context right) fun _ => passive.pure _
  | .binary left _ right | .logical left _ right =>
    passive.bind (expr passive context left) fun _ =>
      passive.bind (expr passive context right) fun _ => passive.pure _
  | .call callee _ arguments =>
    passive.bind (expr passive context callee) fun _ =>
      passive.bind (exprs passive context arguments) fun _ => passive.pure _
  | .getField object _ => passive.bind (expr passive context object) fun _ => passive.pure _
  | .setField object _ value =>
    passive.bind (expr passive context value) fun _ =>
      passive.bind (expr passive context object) fun _ => passive.pure _
  | .this _ _ | .super _ _ _ => passive.bind (passive.linkUnless _ _ _) fun _ => passive.pure _
  | .misfit _ => passive.throw _
termination_by structural e => e

theorem exprs (passive : Passive P) (context : Context) : ∀ es : List Expr,
    P (List Expr) (exprs context es)
  | [] => passive.pure _
  | e :: rest =>
    passive.bind (expr passive context e) fun _ =>
      passive.bind (exprs passive context rest) fun _ => passive.pure _
termination_by structural es => es

end

theorem expr? (passive : Passive P) (context : Context) : ∀ e? : Option Expr,
    P (Option Expr) (expr? context e?)
  | none => passive.pure _
  | some e => passive.bind (passive.expr context e) fun _ => passive.pure _

/-- A superclass is a reference with a check in front, and so is passive. -/
theorem superclass (passive : Passive P) (context : Context) (name : Token) (parent : Superclass) :
    P Superclass (superclass context name parent) :=
  passive.bind (passive.reportIf _ _ _) fun _ => passive.bind (passive.expr _ _) fun _ =>
    passive.pure _

end Passive

namespace Closed

variable {P : (α : Type) → Resolve α → Prop}

/-- Parameters are declared and made ready, one by one. -/
theorem declareAll (closed : Closed P) : ∀ params : List Token, P Unit (declareAll params)
  | [] => closed.pure _
  | name :: rest =>
    closed.bind (closed.declare name) fun _ => closed.bind (closed.define name) fun _ =>
      declareAll closed rest

mutual

/-- A closed property holds of the resolution of every statement, with the functions and the classes
in it.  Beside the effects of expressions there are declarations and inner scopes. -/
theorem stmt (closed : Closed P) (context : Context) : ∀ st : Stmt, P Stmt (stmt context st)
  | .expr e | .print e | .bare e => closed.bind (closed.expr context e) fun _ => closed.pure _
  | .varDecl name initializer =>
    closed.bind (closed.declare name) fun _ => closed.bind (closed.expr? context initializer) fun _ =>
      closed.bind (closed.define name) fun _ => closed.pure _
  | .block statements =>
    closed.bind (closed.within _ (stmts closed context statements)) fun _ => closed.pure _
  | .ifElse condition thenBranch none =>
    closed.bind (closed.expr context condition) fun _ =>
      closed.bind (stmt closed context thenBranch) fun _ => closed.pure _
  | .ifElse condition thenBranch (some elseBranch) =>
    closed.bind (closed.expr context condition) fun _ =>
      closed.bind (stmt closed context thenBranch) fun _ =>
        closed.bind (stmt closed context elseBranch) fun _ => closed.pure _
  | .loop condition body =>
    closed.bind (closed.expr context condition) fun _ => closed.bind (stmt closed _ body) fun _ =>
      closed.pure _
  | .funDecl decl =>
    closed.bind (closed.declare _) fun _ => closed.bind (closed.define _) fun _ =>
      closed.bind (function closed context .function decl) fun _ => closed.pure _
  | .classDecl _ none members =>
    closed.bind (closed.declare _) fun _ => closed.bind (closed.define _) fun _ =>
      closed.bind (closed.within _ (methods closed _ members)) fun _ => closed.pure _
  | .classDecl name (some parent) members =>
    closed.bind (closed.declare _) fun _ => closed.bind (closed.define _) fun _ =>
      closed.bind (closed.superclass context name parent) fun _ =>
        closed.bind (closed.within _ (closed.within _ (methods closed _ members))) fun _ =>
          closed.pure _
  | .ret _ value =>
    closed.bind (closed.reportIf _ _ _) fun _ => closed.bind (closed.reportIf _ _ _) fun _ =>
      closed.bind (closed.expr? context value) fun _ => closed.pure _
  | .brk _ | .cont _ => closed.bind (closed.reportIf _ _ _) fun _ => closed.pure _
  | .misfit _ => closed.throw _
termination_by structural st => st

theorem stmts (closed : Closed P) (context : Context) : ∀ sts : List Stmt,
    P (List Stmt) (stmts context sts)
  | [] => closed.pure _
  | st :: rest =>
    closed.bind (stmt closed context st) fun _ =>
      closed.bind (stmts closed context rest) fun _ => closed.pure _
termination_by structural sts => sts

/-- A function is its parameters and its body, in a scope of its own. -/
theorem function (closed : Closed P) (context : Context) (kind : FunctionKind) :
    ∀ decl : FunDecl, P FunDecl (function context kind decl)
  | ⟨_, params, body⟩ =>
    closed.bind (closed.within _ (closed.bind (closed.declareAll params) fun _ =>
      stmts closed _ body)) fun _ => closed.pure _
termination_by structural decl => decl

/-- Methods are functions, whatever kind their names give them. -/
theorem methods (closed : Closed P) (context : Context) : ∀ decls : List FunDecl,
    P (List FunDecl) (methods context decls)
  | [] => closed.pure _
  | decl :: rest =>
    closed.bind (function closed context _ decl) fun _ =>
      closed.bind (methods closed context rest) fun _ => closed.pure _
termination_by structural decls => decls

end

end Closed

end Scope
end Arbor
