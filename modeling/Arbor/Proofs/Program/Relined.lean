import Arbor.Diagnostic
import Arbor.Proofs.Program.Unresolved

/-!
# Programs on other lines

The same text further down in a larger one has the same tokens on other lines.  Here `line` says
where each line has gone; trees and reports follow their tokens.

A tree on other lines is a tree as it is read there, so nothing in it is resolved.  On the same lines
it is the tree before resolution.

## Main definitions

* `Token.relined`, `Expr.relined`, `Stmt.relined`, `Diagnostic.relined`: what is read on other lines.
-/

namespace Arbor

variable (line : Int → Int)

/-- A token on another line. -/
def Token.relined (t : Token) : Token :=
  { t with line := line t.line }

/-- A token keeps its kind on another line, and the parser looks at nothing else of it. -/
@[simp]
theorem Token.kind_relined (t : Token) : (t.relined line).kind = t.kind :=
  rfl

@[simp]
theorem Token.literal_relined (t : Token) : (t.relined line).literal = t.literal :=
  rfl

/-- Tokens whose line does not change do not change at all. -/
@[simp]
theorem Token.relined_id : Token.relined id = id :=
  rfl

/-- A report on other lines. -/
def Diagnostic.relined : Diagnostic → Diagnostic
  | .lexical place error => .lexical (line place) error
  | .grammar token error => .grammar (token.relined line) error
  | .scope token error => .scope (token.relined line) error
  | .runtime error => .runtime { error with line := line error.line }

/-- Neither do reports. -/
theorem Diagnostic.relined_id : Diagnostic.relined id = id := by
  funext report
  cases report <;> rfl

mutual

/-- An expression as it is read on other lines. -/
def Expr.relined : Expr → Expr
  | .literal value => .literal value
  | .grouping inner => .grouping inner.relined
  | .var name _ => .var (name.relined line) none
  | .assign name value _ => .assign (name.relined line) value.relined none
  | .unary operator right => .unary (operator.relined line) right.relined
  | .binary left operator right => .binary left.relined (operator.relined line) right.relined
  | .logical left operator right => .logical left.relined (operator.relined line) right.relined
  | .call callee paren arguments =>
    .call callee.relined (paren.relined line) (Expr.allRelined arguments)
  | .getField object name => .getField object.relined (name.relined line)
  | .setField object name value => .setField object.relined (name.relined line) value.relined
  | .this keyword _ => .this (keyword.relined line) none
  | .super keyword method _ => .super (keyword.relined line) (method.relined line) none
  | .misfit what => .misfit what

/-- Expressions as they are read on other lines. -/
def Expr.allRelined : List Expr → List Expr
  | [] => []
  | e :: rest => e.relined :: Expr.allRelined rest

end

/-- A superclass as it is read on other lines. -/
def Superclass.relined (parent : Superclass) : Superclass :=
  ⟨parent.name.relined line, parent.value.relined line⟩

mutual

/-- A statement as it is read on other lines. -/
def Stmt.relined : Stmt → Stmt
  | .expr expression => .expr (expression.relined line)
  | .print expression => .print (expression.relined line)
  | .varDecl name initializer => .varDecl (name.relined line) (initializer.map (Expr.relined line))
  | .block statements => .block (Stmt.allRelined statements)
  | .ifElse condition thenBranch none => .ifElse (condition.relined line) thenBranch.relined none
  | .ifElse condition thenBranch (some elseBranch) =>
    .ifElse (condition.relined line) thenBranch.relined (some elseBranch.relined)
  | .loop condition body => .loop (condition.relined line) body.relined
  | .funDecl decl => .funDecl decl.relined
  | .classDecl name superclass methods =>
    .classDecl (name.relined line) (superclass.map (Superclass.relined line))
      (FunDecl.allRelined methods)
  | .ret keyword value => .ret (keyword.relined line) (value.map (Expr.relined line))
  | .brk keyword => .brk (keyword.relined line)
  | .cont keyword => .cont (keyword.relined line)
  | .bare expression => .bare (expression.relined line)
  | .misfit what => .misfit what

/-- Statements as they are read on other lines. -/
def Stmt.allRelined : List Stmt → List Stmt
  | [] => []
  | s :: rest => s.relined :: Stmt.allRelined rest

/-- A function as it is read on other lines. -/
def FunDecl.relined : FunDecl → FunDecl
  | ⟨name, params, body⟩ =>
    ⟨name.relined line, params.map (Token.relined line), Stmt.allRelined body⟩

/-- Functions as they are read on other lines. -/
def FunDecl.allRelined : List FunDecl → List FunDecl
  | [] => []
  | decl :: rest => decl.relined :: FunDecl.allRelined rest

end

variable {line : Int → Int}

/-- Lists are treated item by item. -/
theorem Expr.allRelined_eq_map (es : List Expr) :
    Expr.allRelined line es = es.map (Expr.relined line) := by
  induction es with
  | nil => rfl
  | cons e rest ih => exact congrArg (e.relined line :: ·) ih

theorem Stmt.allRelined_eq_map (sts : List Stmt) :
    Stmt.allRelined line sts = sts.map (Stmt.relined line) := by
  induction sts with
  | nil => rfl
  | cons st rest ih => exact congrArg (st.relined line :: ·) ih

theorem FunDecl.allRelined_eq_map (decls : List FunDecl) :
    FunDecl.allRelined line decls = decls.map (FunDecl.relined line) := by
  induction decls with
  | nil => rfl
  | cons decl rest ih => exact congrArg (decl.relined line :: ·) ih

/-! ### On the same lines -/

mutual

/-- On the same lines an expression is read as it is before resolution: the parser knows no
distances, so moving lines leaves none in the tree. -/
theorem Expr.relined_id : ∀ e : Expr, e.relined id = e.unresolved
  | .literal _ | .var _ _ | .this _ _ | .super _ _ _ | .misfit _ => rfl
  | .grouping inner => by simp only [Expr.relined, Expr.unresolved, inner.relined_id]
  | .assign _ value _ => by
    simp only [Expr.relined, Expr.unresolved, value.relined_id, Token.relined_id, id_eq]
  | .unary _ right => by
    simp only [Expr.relined, Expr.unresolved, right.relined_id, Token.relined_id, id_eq]
  | .binary left _ right | .logical left _ right => by
    simp only [Expr.relined, Expr.unresolved, left.relined_id, right.relined_id, Token.relined_id,
      id_eq]
  | .call callee _ arguments => by
    simp only [Expr.relined, Expr.unresolved, callee.relined_id, Expr.allRelined_id arguments,
      Token.relined_id, id_eq]
  | .getField object _ => by
    simp only [Expr.relined, Expr.unresolved, object.relined_id, Token.relined_id, id_eq]
  | .setField object _ value => by
    simp only [Expr.relined, Expr.unresolved, object.relined_id, value.relined_id,
      Token.relined_id, id_eq]
termination_by structural e => e

theorem Expr.allRelined_id : ∀ es : List Expr, Expr.allRelined id es = Expr.allUnresolved es
  | [] => rfl
  | e :: rest => by
    simp only [Expr.allRelined, Expr.allUnresolved, e.relined_id, Expr.allRelined_id rest]
termination_by structural es => es

end

/-- An expression moved nowhere has lost its distances and nothing else.  Lines are moved in what a
parser reads, and that has no distances yet. -/
theorem Expr.relined_id_eq : Expr.relined id = Expr.unresolved :=
  funext Expr.relined_id

/-- So has a superclass. -/
theorem Superclass.relined_id : Superclass.relined id = Superclass.unresolved := by
  funext parent
  simp only [Superclass.relined, Superclass.unresolved, Expr.relined_id, Token.relined_id, id_eq]

mutual

/-- On the same lines a statement is read as it is before resolution, with all the functions and
classes that are declared in it. -/
theorem Stmt.relined_id : ∀ st : Stmt, st.relined id = st.unresolved
  | .expr _ | .print _ | .bare _ => by simp only [Stmt.relined, Stmt.unresolved, Expr.relined_id]
  | .varDecl _ _ | .ret _ _ => by
    simp only [Stmt.relined, Stmt.unresolved, Expr.relined_id_eq, Token.relined_id, id_eq]
  | .block statements => by
    simp only [Stmt.relined, Stmt.unresolved, Stmt.allRelined_id statements]
  | .ifElse _ thenBranch none => by
    simp only [Stmt.relined, Stmt.unresolved, Expr.relined_id, thenBranch.relined_id]
  | .ifElse _ thenBranch (some elseBranch) => by
    simp only [Stmt.relined, Stmt.unresolved, Expr.relined_id, thenBranch.relined_id,
      elseBranch.relined_id]
  | .loop _ body => by
    simp only [Stmt.relined, Stmt.unresolved, Expr.relined_id, body.relined_id]
  | .funDecl decl => by simp only [Stmt.relined, Stmt.unresolved, decl.relined_id]
  | .classDecl _ _ methods => by
    simp only [Stmt.relined, Stmt.unresolved, Superclass.relined_id, FunDecl.allRelined_id methods,
      Token.relined_id, id_eq]
  | .brk _ | .cont _ | .misfit _ => rfl
termination_by structural st => st

theorem Stmt.allRelined_id : ∀ sts : List Stmt, Stmt.allRelined id sts = Stmt.allUnresolved sts
  | [] => rfl
  | st :: rest => by
    simp only [Stmt.allRelined, Stmt.allUnresolved, st.relined_id, Stmt.allRelined_id rest]
termination_by structural sts => sts

/-- So has a function. -/
theorem FunDecl.relined_id : ∀ decl : FunDecl, decl.relined id = decl.unresolved
  | ⟨_, params, body⟩ => by
    simp only [FunDecl.relined, FunDecl.unresolved, Stmt.allRelined_id body, Token.relined_id,
      List.map_id, id_eq]
termination_by structural decl => decl

theorem FunDecl.allRelined_id : ∀ decls : List FunDecl,
    FunDecl.allRelined id decls = FunDecl.allUnresolved decls
  | [] => rfl
  | decl :: rest => by
    simp only [FunDecl.allRelined, FunDecl.allUnresolved, decl.relined_id,
      FunDecl.allRelined_id rest]
termination_by structural decls => decls

end

end Arbor
