import Arbor.Program.NodeKind
import Arbor.Token

/-!
# Programs

Expressions, statements and programs.  A reference (a variable, an assignment, `this` or `super`)
carries the number of scopes between it and the scope that declares its name: the parser leaves
it open, `Scope.resolve` fills it in, and a reference that stays open is looked up among the
globals.

A tree loaded from storage can hold values of the wrong sort.  They are kept as leaves
(`Expr.misfit`, `Stmt.misfit`, `Stmt.bare`), so that a stage meets them exactly when it reaches
them; the parser produces none.

## Main definitions

* `Expr`: expressions.
* `Stmt`, `FunDecl`: statements and functions, mutually recursive.
* `Program`: a list of statements.
-/

namespace Arbor

/-- Why a node of a stored tree cannot be used although its kind is right. -/
inductive SlotFault where
  /-- A list was needed. -/
  | notAList
  /-- A token or node with certain parts was needed. -/
  | noSuchPart
deriving DecidableEq, Inhabited

/-- A subtree that cannot stand where it stands. -/
inductive Misfit where
  | unexpected (what : Foreign)
  | badSlot (node : NodeKind) (fault : SlotFault)
deriving DecidableEq, Inhabited

namespace Misfit

/-- What a stage finds when it reaches the subtree. -/
def found : Misfit → Foreign
  | unexpected what => what
  | badSlot node _ => .node node

end Misfit

/-- Expressions. -/
inductive Expr where
  | literal (value : Constant)
  | grouping (inner : Expr)
  | var (name : Token) (hops : Option Nat)
  | assign (name : Token) (value : Expr) (hops : Option Nat)
  | unary (operator : Token) (right : Expr)
  | binary (left : Expr) (operator : Token) (right : Expr)
  | logical (left : Expr) (operator : Token) (right : Expr)
  | call (callee : Expr) (paren : Token) (arguments : List Expr)
  | getField (object : Expr) (name : Token)
  | setField (object : Expr) (name : Token) (value : Expr)
  | this (keyword : Token) (hops : Option Nat)
  | super (keyword method : Token) (hops : Option Nat)
  | misfit (what : Misfit)

/-- The superclass of a class: the name it is blamed by, and the expression that denotes it. -/
structure Superclass where
  name : Token
  value : Expr

mutual

/-- Statements. -/
inductive Stmt where
  | expr (expression : Expr)
  | print (expression : Expr)
  | varDecl (name : Token) (initializer : Option Expr)
  | block (statements : List Stmt)
  | ifElse (condition : Expr) (thenBranch : Stmt) (elseBranch : Option Stmt)
  | loop (condition : Expr) (body : Stmt)
  | funDecl (decl : FunDecl)
  | classDecl (name : Token) (superclass : Option Superclass) (methods : List FunDecl)
  | ret (keyword : Token) (value : Option Expr)
  | brk (keyword : Token)
  | cont (keyword : Token)
  /-- An expression that stands in a list of statements. -/
  | bare (expression : Expr)
  | misfit (what : Misfit)

/-- A function or method: its name, parameters and body. -/
structure FunDecl where
  name : Token
  params : List Token
  body : List Stmt

end

instance : Inhabited Expr := ⟨.literal .nil⟩
instance : Inhabited Stmt := ⟨.block []⟩

namespace Expr

/-- What a stage finds when it reaches an expression. -/
def found : Expr → Foreign
  | literal _ => .node .literal
  | grouping _ => .node .grouping
  | var _ _ => .node .var
  | assign _ _ _ => .node .assign
  | unary _ _ => .node .unary
  | binary _ _ _ => .node .binary
  | logical _ _ _ => .node .logical
  | call _ _ _ => .node .call
  | getField _ _ => .node .getField
  | setField _ _ _ => .node .setField
  | this _ _ => .node .this
  | super _ _ _ => .node .super
  | misfit what => what.found

end Expr

namespace Stmt

/-- What a stage finds when it reaches a statement. -/
def found : Stmt → Foreign
  | expr _ => .node .exprStmt
  | print _ => .node .printStmt
  | varDecl _ _ => .node .varDecl
  | block _ => .node .block
  | ifElse _ _ _ => .node .ifStmt
  | loop _ _ => .node .whileStmt
  | funDecl _ => .node .funDecl
  | classDecl _ _ _ => .node .classDecl
  | ret _ _ => .node .returnStmt
  | brk _ => .node .breakStmt
  | cont _ => .node .continueStmt
  | bare e => e.found
  | misfit what => what.found

end Stmt

/-- A program: its statements in order. -/
structure Program where
  body : List Stmt
deriving Inhabited

end Arbor
