import Arbor.Proofs.Program.Formed
import Arbor.Proofs.Stateful
import Arbor.Scope

/-!
# Programs before resolution

Resolution looks at the names of references and never at the distances they already carry, and it
changes nothing but distances.  So what a program resolves to depends on the program only as it was
before any resolution, and resolving it again gives the same program.

## Main definitions

* `Program.unresolved`: a program without the distances of its references.

## Main statements

* `Program.resolve_unresolved`: distances do not matter to resolution.
* `Program.unresolved_of_resolve`: nothing but distances is changed by it.
* `Program.formed_of_resolve`: a well-formed program stays one.
-/

namespace Arbor

/-! ### Leaving out distances -/

mutual

/-- An expression without the distances of its references. -/
def Expr.unresolved : Expr → Expr
  | .literal value => .literal value
  | .grouping inner => .grouping inner.unresolved
  | .var name _ => .var name none
  | .assign name value _ => .assign name value.unresolved none
  | .unary operator right => .unary operator right.unresolved
  | .binary left operator right => .binary left.unresolved operator right.unresolved
  | .logical left operator right => .logical left.unresolved operator right.unresolved
  | .call callee paren arguments => .call callee.unresolved paren (Expr.allUnresolved arguments)
  | .getField object name => .getField object.unresolved name
  | .setField object name value => .setField object.unresolved name value.unresolved
  | .this keyword _ => .this keyword none
  | .super keyword method _ => .super keyword method none
  | .misfit what => .misfit what

/-- Expressions without the distances of their references. -/
def Expr.allUnresolved : List Expr → List Expr
  | [] => []
  | e :: rest => e.unresolved :: Expr.allUnresolved rest

end

/-- A superclass without the distances of its references. -/
def Superclass.unresolved (parent : Superclass) : Superclass :=
  { parent with value := parent.value.unresolved }

mutual

/-- A statement without the distances of its references. -/
def Stmt.unresolved : Stmt → Stmt
  | .expr expression => .expr expression.unresolved
  | .print expression => .print expression.unresolved
  | .varDecl name initializer => .varDecl name (initializer.map Expr.unresolved)
  | .block statements => .block (Stmt.allUnresolved statements)
  | .ifElse condition thenBranch none => .ifElse condition.unresolved thenBranch.unresolved none
  | .ifElse condition thenBranch (some elseBranch) =>
    .ifElse condition.unresolved thenBranch.unresolved (some elseBranch.unresolved)
  | .loop condition body => .loop condition.unresolved body.unresolved
  | .funDecl decl => .funDecl decl.unresolved
  | .classDecl name superclass methods =>
    .classDecl name (superclass.map Superclass.unresolved) (FunDecl.allUnresolved methods)
  | .ret keyword value => .ret keyword (value.map Expr.unresolved)
  | .brk keyword => .brk keyword
  | .cont keyword => .cont keyword
  | .bare expression => .bare expression.unresolved
  | .misfit what => .misfit what

/-- Statements without the distances of their references. -/
def Stmt.allUnresolved : List Stmt → List Stmt
  | [] => []
  | s :: rest => s.unresolved :: Stmt.allUnresolved rest

/-- A function without the distances of its references. -/
def FunDecl.unresolved : FunDecl → FunDecl
  | ⟨name, params, body⟩ => ⟨name, params, Stmt.allUnresolved body⟩

/-- Functions without the distances of their references. -/
def FunDecl.allUnresolved : List FunDecl → List FunDecl
  | [] => []
  | decl :: rest => decl.unresolved :: FunDecl.allUnresolved rest

end

/-- A program without the distances of its references. -/
def Program.unresolved (p : Program) : Program :=
  ⟨Stmt.allUnresolved p.body⟩

/-- Lists are treated item by item; the recursion is spelled out for the sake of termination
only. -/
theorem Expr.allUnresolved_eq_map (es : List Expr) :
    Expr.allUnresolved es = es.map Expr.unresolved := by
  induction es with
  | nil => rfl
  | cons e rest ih => exact congrArg (e.unresolved :: ·) ih

theorem Stmt.allUnresolved_eq_map (sts : List Stmt) :
    Stmt.allUnresolved sts = sts.map Stmt.unresolved := by
  induction sts with
  | nil => rfl
  | cons st rest ih => exact congrArg (st.unresolved :: ·) ih

theorem FunDecl.allUnresolved_eq_map (decls : List FunDecl) :
    FunDecl.allUnresolved decls = decls.map FunDecl.unresolved := by
  induction decls with
  | nil => rfl
  | cons decl rest ih => exact congrArg (decl.unresolved :: ·) ih

/-- No statement is lost. -/
theorem Stmt.length_allUnresolved : ∀ ss : List Stmt, (Stmt.allUnresolved ss).length = ss.length
  | [] => rfl
  | _ :: rest => congrArg (· + 1) (Stmt.length_allUnresolved rest)

/-- Functions keep their names. -/
theorem FunDecl.name_unresolved (decl : FunDecl) : decl.unresolved.name = decl.name := by
  cases decl
  rfl

/-! ### Distances do not matter to the form of a tree -/

section Formed

variable {token : Token → Prop}

mutual

/-- An expression is as well-formed without its distances as with them.  Distances are part of
references only, about which being well-formed says nothing but how they are spelled. -/
theorem Expr.formed_unresolved : ∀ e : Expr, e.unresolved.Formed token ↔ e.Formed token
  | .literal _ | .var _ _ | .this _ _ | .super _ _ _ | .misfit _ => Iff.rfl
  | .grouping inner => by simp only [Expr.unresolved, Expr.Formed, formed_unresolved inner]
  | .assign _ value _ => by simp only [Expr.unresolved, Expr.Formed, formed_unresolved value]
  | .unary _ right => by simp only [Expr.unresolved, Expr.Formed, formed_unresolved right]
  | .binary left _ right | .logical left _ right => by
    simp only [Expr.unresolved, Expr.Formed, formed_unresolved left, formed_unresolved right]
  | .call callee _ arguments => by
    simp only [Expr.unresolved, Expr.Formed, formed_unresolved callee,
      allFormed_unresolved arguments]
  | .getField object _ => by simp only [Expr.unresolved, Expr.Formed, formed_unresolved object]
  | .setField object _ value => by
    simp only [Expr.unresolved, Expr.Formed, formed_unresolved object, formed_unresolved value]
termination_by structural e => e

theorem Expr.allFormed_unresolved : ∀ es : List Expr,
    Expr.AllFormed token (Expr.allUnresolved es) ↔ Expr.AllFormed token es
  | [] => Iff.rfl
  | e :: rest => by
    simp only [Expr.allUnresolved, Expr.AllFormed, formed_unresolved e, allFormed_unresolved rest]
termination_by structural es => es

end

/-- So is an expression that may be left out. -/
theorem Expr.optionFormed_unresolved : ∀ e? : Option Expr,
    Expr.OptionFormed token (e?.map Expr.unresolved) ↔ Expr.OptionFormed token e?
  | none => Iff.rfl
  | some e => Expr.formed_unresolved e

/-- So is a superclass, which is a variable of its own name.  Taking a distance away makes no
variable of anything else. -/
theorem Superclass.formed_unresolved (parent : Superclass) :
    parent.unresolved.Formed token ↔ parent.Formed token := by
  obtain ⟨name, value⟩ := parent
  refine and_congr_right fun _ => and_congr_right fun _ => ?_
  constructor
  · rintro ⟨hops, same⟩
    cases value with
    | var => exact ⟨_, congrArg (Expr.var · _) (Expr.var.inj same).1⟩
    | _ => cases same
  · rintro ⟨hops, same⟩
    exact ⟨none, congrArg Expr.unresolved same⟩

/-- What is a declaration stays one. -/
theorem Stmt.isDeclaration_unresolved (st : Stmt) :
    st.unresolved.isDeclaration = st.isDeclaration := by
  cases st with
  | ifElse condition thenBranch elseBranch => cases elseBranch <;> rfl
  | _ => rfl

mutual

/-- A statement is as well-formed without its distances as with them.  The induction runs over
statements, lists of them, functions and methods together. -/
theorem Stmt.formed_unresolved : ∀ st : Stmt, st.unresolved.Formed token ↔ st.Formed token
  | .expr e | .print e => Expr.formed_unresolved e
  | .varDecl _ initializer => by
    simp only [Stmt.unresolved, Stmt.Formed, Expr.optionFormed_unresolved initializer]
  | .block statements => by
    simp only [Stmt.unresolved, Stmt.Formed, Stmt.allFormed_unresolved statements]
  | .ifElse condition thenBranch none => by
    simp only [Stmt.unresolved, Stmt.Formed, Expr.formed_unresolved condition,
      Stmt.isDeclaration_unresolved, Stmt.formed_unresolved thenBranch]
  | .ifElse condition thenBranch (some elseBranch) => by
    simp only [Stmt.unresolved, Stmt.Formed, Expr.formed_unresolved condition,
      Stmt.isDeclaration_unresolved, Stmt.formed_unresolved thenBranch,
      Stmt.formed_unresolved elseBranch]
  | .loop condition body => by
    simp only [Stmt.unresolved, Stmt.Formed, Expr.formed_unresolved condition,
      Stmt.isDeclaration_unresolved, Stmt.formed_unresolved body]
  | .funDecl decl => FunDecl.formed_unresolved decl
  | .classDecl _ none methods => by
    simp only [Stmt.unresolved, Option.map_none, Stmt.Formed, FunDecl.allFormed_unresolved methods]
  | .classDecl _ (some parent) methods => by
    simp only [Stmt.unresolved, Option.map_some, Stmt.Formed, Superclass.formed_unresolved,
      FunDecl.allFormed_unresolved methods]
  | .ret _ value => by
    simp only [Stmt.unresolved, Stmt.Formed, Expr.optionFormed_unresolved value]
  | .brk _ | .cont _ | .bare _ | .misfit _ => Iff.rfl
termination_by structural st => st

theorem Stmt.allFormed_unresolved : ∀ sts : List Stmt,
    Stmt.AllFormed token (Stmt.allUnresolved sts) ↔ Stmt.AllFormed token sts
  | [] => Iff.rfl
  | st :: rest => by
    simp only [Stmt.allUnresolved, Stmt.AllFormed, Stmt.formed_unresolved st,
      Stmt.allFormed_unresolved rest]
termination_by structural sts => sts

theorem FunDecl.formed_unresolved : ∀ decl : FunDecl,
    decl.unresolved.Formed token ↔ decl.Formed token
  | ⟨_, _, body⟩ => by
    simp only [FunDecl.unresolved, FunDecl.Formed, Stmt.allFormed_unresolved body]
termination_by structural decl => decl

theorem FunDecl.allFormed_unresolved : ∀ decls : List FunDecl,
    FunDecl.AllFormed token (FunDecl.allUnresolved decls) ↔ FunDecl.AllFormed token decls
  | [] => Iff.rfl
  | decl :: rest => by
    simp only [FunDecl.allUnresolved, FunDecl.AllFormed, FunDecl.formed_unresolved decl,
      FunDecl.allFormed_unresolved rest]
termination_by structural decls => decls

end

end Formed

/-! ### Distances do not matter to resolution -/

namespace Scope

mutual

/-- Resolving an expression overwrites the distances it comes with, so it does not matter what they
are.  Only references carry one, and none of them is looked at. -/
theorem expr_unresolved (context : Context) : ∀ e : Expr,
    expr context e.unresolved = expr context e
  | .literal _ => rfl
  | .grouping inner => by
    simp only [Expr.unresolved, expr, expr_unresolved context inner]
  | .var _ _ => rfl
  | .assign _ value _ => by
    simp only [Expr.unresolved, expr, expr_unresolved context value]
  | .unary _ right => by
    simp only [Expr.unresolved, expr, expr_unresolved context right]
  | .binary left _ right => by
    simp only [Expr.unresolved, expr, expr_unresolved context left, expr_unresolved context right]
  | .logical left _ right => by
    simp only [Expr.unresolved, expr, expr_unresolved context left, expr_unresolved context right]
  | .call callee _ arguments => by
    simp only [Expr.unresolved, expr, expr_unresolved context callee,
      exprs_unresolved context arguments]
  | .getField object _ => by
    simp only [Expr.unresolved, expr, expr_unresolved context object]
  | .setField object _ value => by
    simp only [Expr.unresolved, expr, expr_unresolved context object, expr_unresolved context value]
  | .this _ _ => rfl
  | .super _ _ _ => rfl
  | .misfit _ => rfl
termination_by structural e => e

theorem exprs_unresolved (context : Context) : ∀ es : List Expr,
    exprs context (Expr.allUnresolved es) = exprs context es
  | [] => rfl
  | e :: rest => by
    simp only [Expr.allUnresolved, exprs, expr_unresolved context e, exprs_unresolved context rest]
termination_by structural es => es

end

theorem expr?_unresolved (context : Context) : ∀ e? : Option Expr,
    expr? context (e?.map Expr.unresolved) = expr? context e?
  | none => rfl
  | some e => by simp only [Option.map_some, expr?, expr_unresolved context e]

/-- The check that a class does not inherit from itself goes by names. -/
theorem superclass_unresolved (context : Context) (name : Token) (parent : Superclass) :
    superclass context name parent.unresolved = superclass context name parent := by
  simp only [superclass, Superclass.unresolved, expr_unresolved]

mutual

/-- Resolving a statement overwrites all distances in it: no rule of the resolver looks at one
before it puts its own there. -/
theorem stmt_unresolved (context : Context) : ∀ st : Stmt,
    stmt context st.unresolved = stmt context st
  | .expr e => by simp only [Stmt.unresolved, stmt, expr_unresolved context e]
  | .print e => by simp only [Stmt.unresolved, stmt, expr_unresolved context e]
  | .bare e => by simp only [Stmt.unresolved, stmt, expr_unresolved context e]
  | .varDecl _ initializer => by
    simp only [Stmt.unresolved, stmt, expr?_unresolved context initializer]
  | .block statements => by
    simp only [Stmt.unresolved, stmt, stmts_unresolved context statements]
  | .ifElse condition thenBranch none => by
    simp only [Stmt.unresolved, stmt, expr_unresolved context condition,
      stmt_unresolved context thenBranch]
  | .ifElse condition thenBranch (some elseBranch) => by
    simp only [Stmt.unresolved, stmt, expr_unresolved context condition,
      stmt_unresolved context thenBranch, stmt_unresolved context elseBranch]
  | .loop condition body => by
    simp only [Stmt.unresolved, stmt, expr_unresolved context condition, stmt_unresolved _ body]
  | .funDecl decl => by
    simp only [Stmt.unresolved, stmt, FunDecl.name_unresolved, function_unresolved _ _ decl]
  | .classDecl _ none members => by
    simp only [Stmt.unresolved, Option.map_none, stmt, methods_unresolved _ members]
  | .classDecl _ (some parent) members => by
    simp only [Stmt.unresolved, Option.map_some, stmt, superclass_unresolved,
      methods_unresolved _ members]
  | .ret _ value => by
    simp only [Stmt.unresolved, stmt, Option.isSome_map, expr?_unresolved context value]
  | .brk _ => rfl
  | .cont _ => rfl
  | .misfit _ => rfl
termination_by structural st => st

theorem stmts_unresolved (context : Context) : ∀ sts : List Stmt,
    stmts context (Stmt.allUnresolved sts) = stmts context sts
  | [] => rfl
  | st :: rest => by
    simp only [Stmt.allUnresolved, stmts, stmt_unresolved context st, stmts_unresolved context rest]
termination_by structural sts => sts

theorem function_unresolved (context : Context) (kind : FunctionKind) : ∀ decl : FunDecl,
    function context kind decl.unresolved = function context kind decl
  | ⟨_, _, body⟩ => by
    simp only [FunDecl.unresolved, function, stmts_unresolved _ body]
termination_by structural decl => decl

theorem methods_unresolved (context : Context) : ∀ decls : List FunDecl,
    methods context (FunDecl.allUnresolved decls) = methods context decls
  | [] => rfl
  | decl :: rest => by
    simp only [FunDecl.allUnresolved, methods, FunDecl.name_unresolved,
      function_unresolved _ _ decl, methods_unresolved context rest]
termination_by structural decls => decls

end

end Scope

/-- What a program resolves to does not depend on the distances it carries. -/
theorem Program.resolve_unresolved (globals : List String) (p : Program) :
    p.unresolved.resolve globals = p.resolve globals := by
  simp only [Program.resolve, Program.unresolved, Scope.stmts_unresolved]

/-! ### Nothing but distances is changed -/

namespace Scope

open Stateful

mutual

/-- What resolution returns differs from what it was given in distances only.  The induction is on
the expression, and each step of the walk is read off its run. -/
theorem unresolved_of_expr (context : Context) : ∀ (e : Expr) {e' : Expr} {s s' : State},
    (expr context e).run s = .ok e' s' → e'.unresolved = e.unresolved
  | .literal _, _, _, _, ran => by
    cases ran
    rfl
  | .grouping inner, _, _, _, ran => by
    simp only [expr, run_bind_ok, run_pure_ok] at ran
    obtain ⟨_, _, ran, rfl, -⟩ := ran
    simp only [Expr.unresolved, unresolved_of_expr context inner ran]
  | .var _ _, _, _, _, ran => by
    simp only [expr, run_bind_ok, run_pure_ok] at ran
    obtain ⟨_, _, _, _, _, _, _, _, _, rfl, -⟩ := ran
    rfl
  | .assign _ value _, _, _, _, ran => by
    simp only [expr, run_bind_ok, run_pure_ok] at ran
    obtain ⟨_, _, ran, _, _, _, rfl, -⟩ := ran
    simp only [Expr.unresolved, unresolved_of_expr context value ran]
  | .unary _ right, _, _, _, ran => by
    simp only [expr, run_bind_ok, run_pure_ok] at ran
    obtain ⟨_, _, ran, rfl, -⟩ := ran
    simp only [Expr.unresolved, unresolved_of_expr context right ran]
  | .binary left _ right, _, _, _, ran | .logical left _ right, _, _, _, ran => by
    simp only [expr, run_bind_ok, run_pure_ok] at ran
    obtain ⟨_, _, ranLeft, _, _, ranRight, rfl, -⟩ := ran
    simp only [Expr.unresolved, unresolved_of_expr context left ranLeft,
      unresolved_of_expr context right ranRight]
  | .call callee _ arguments, _, _, _, ran => by
    simp only [expr, run_bind_ok, run_pure_ok] at ran
    obtain ⟨_, _, ranCallee, _, _, ranArguments, rfl, -⟩ := ran
    simp only [Expr.unresolved, unresolved_of_expr context callee ranCallee,
      unresolved_of_exprs context arguments ranArguments]
  | .getField object _, _, _, _, ran => by
    simp only [expr, run_bind_ok, run_pure_ok] at ran
    obtain ⟨_, _, ran, rfl, -⟩ := ran
    simp only [Expr.unresolved, unresolved_of_expr context object ran]
  | .setField object _ value, _, _, _, ran => by
    simp only [expr, run_bind_ok, run_pure_ok] at ran
    obtain ⟨_, _, ranValue, _, _, ranObject, rfl, -⟩ := ran
    simp only [Expr.unresolved, unresolved_of_expr context value ranValue,
      unresolved_of_expr context object ranObject]
  | .this _ _, _, _, _, ran | .super _ _ _, _, _, _, ran => by
    simp only [expr, run_bind_ok, run_pure_ok] at ran
    obtain ⟨_, _, _, rfl, -⟩ := ran
    rfl
  | .misfit _, _, _, _, ran => absurd ran run_throw_ok
termination_by structural e => e

/-- Arguments too differ in distances only; the induction is on the list. -/
theorem unresolved_of_exprs (context : Context) :
    ∀ (es : List Expr) {es' : List Expr} {s s' : State},
      (exprs context es).run s = .ok es' s' → Expr.allUnresolved es' = Expr.allUnresolved es
  | [], _, _, _, ran => by
    cases ran
    rfl
  | e :: rest, _, _, _, ran => by
    simp only [exprs, run_bind_ok, run_pure_ok] at ran
    obtain ⟨_, _, ranFirst, _, _, ranRest, rfl, -⟩ := ran
    simp only [Expr.allUnresolved, unresolved_of_expr context e ranFirst,
      unresolved_of_exprs context rest ranRest]
termination_by structural es => es

end

/-- So does an expression that may be left out.  If it is, there is nothing to resolve. -/
theorem unresolved_of_expr? {context : Context} {e? e?' : Option Expr} {s s' : State}
    (ran : (expr? context e?).run s = .ok e?' s') :
    e?'.map Expr.unresolved = e?.map Expr.unresolved := by
  cases e? with
  | none =>
    cases ran
    rfl
  | some e =>
    obtain ⟨_, ranInner, rfl⟩ := run_map_ok.mp ran
    exact congrArg some (unresolved_of_expr context e ranInner)

/-- So does a superclass. -/
theorem unresolved_of_superclass {context : Context} {name : Token} {parent parent' : Superclass}
    {s s' : State} (ran : (superclass context name parent).run s = .ok parent' s') :
    parent'.unresolved = parent.unresolved := by
  simp only [superclass, run_bind_ok, run_pure_ok] at ran
  obtain ⟨_, _, _, _, _, ran, rfl, -⟩ := ran
  simp only [Superclass.unresolved, unresolved_of_expr _ _ ran]

/-- What is done inside a scope is done from some state to another. -/
theorem run_of_within {α : Type} {ready : List String} {body : Resolve α} {a : α} {s s' : State}
    (ran : (within ready body).run s = .ok a s') : ∃ s₁ s₂, body.run s₁ = .ok a s₂ := by
  unfold within at ran
  simp only [run_bind_ok, run_pure_ok] at ran
  obtain ⟨_, s₁, _, _, s₂, inside, _, _, _, rfl, -⟩ := ran
  exact ⟨s₁, s₂, inside⟩

mutual

/-- So does a statement, with all that is in it.  A statement is rebuilt from its resolved parts and
the tokens that it had. -/
theorem unresolved_of_stmt (context : Context) : ∀ (st : Stmt) {st' : Stmt} {s s' : State},
    (stmt context st).run s = .ok st' s' → st'.unresolved = st.unresolved
  | .expr e, _, _, _, ran | .print e, _, _, _, ran | .bare e, _, _, _, ran => by
    simp only [stmt, run_bind_ok, run_pure_ok] at ran
    obtain ⟨_, _, ran, rfl, -⟩ := ran
    simp only [Stmt.unresolved, unresolved_of_expr context e ran]
  | .varDecl _ _, _, _, _, ran => by
    simp only [stmt, run_bind_ok, run_pure_ok] at ran
    obtain ⟨_, _, _, _, _, ran, _, _, _, rfl, -⟩ := ran
    simp only [Stmt.unresolved, unresolved_of_expr? ran]
  | .block statements, _, _, _, ran => by
    simp only [stmt, run_bind_ok, run_pure_ok] at ran
    obtain ⟨_, _, ran, rfl, -⟩ := ran
    obtain ⟨_, _, inside⟩ := run_of_within ran
    simp only [Stmt.unresolved, unresolved_of_stmts context statements inside]
  | .ifElse condition thenBranch none, _, _, _, ran => by
    simp only [stmt, run_bind_ok, run_pure_ok] at ran
    obtain ⟨_, _, ranCondition, _, _, ranThen, rfl, -⟩ := ran
    simp only [Stmt.unresolved, unresolved_of_expr context condition ranCondition,
      unresolved_of_stmt context thenBranch ranThen]
  | .ifElse condition thenBranch (some elseBranch), _, _, _, ran => by
    simp only [stmt, run_bind_ok, run_pure_ok] at ran
    obtain ⟨_, _, ranCondition, _, _, ranThen, _, _, ranElse, rfl, -⟩ := ran
    simp only [Stmt.unresolved, unresolved_of_expr context condition ranCondition,
      unresolved_of_stmt context thenBranch ranThen, unresolved_of_stmt context elseBranch ranElse]
  | .loop condition body, _, _, _, ran => by
    simp only [stmt, run_bind_ok, run_pure_ok] at ran
    obtain ⟨_, _, ranCondition, _, _, ranBody, rfl, -⟩ := ran
    simp only [Stmt.unresolved, unresolved_of_expr context condition ranCondition,
      unresolved_of_stmt _ body ranBody]
  | .funDecl decl, _, _, _, ran => by
    simp only [stmt, run_bind_ok, run_pure_ok] at ran
    obtain ⟨_, _, _, _, _, _, _, _, ran, rfl, -⟩ := ran
    simp only [Stmt.unresolved, unresolved_of_function context _ decl ran]
  | .classDecl _ none members, _, _, _, ran => by
    simp only [stmt, run_bind_ok, run_pure_ok] at ran
    obtain ⟨_, _, _, _, _, _, _, _, ran, rfl, -⟩ := ran
    obtain ⟨_, _, inside⟩ := run_of_within ran
    simp only [Stmt.unresolved, unresolved_of_methods _ members inside]
  | .classDecl _ (some parent) members, _, _, _, ran => by
    simp only [stmt, run_bind_ok, run_pure_ok] at ran
    obtain ⟨_, _, _, _, _, _, _, _, ranParent, _, _, ran, rfl, -⟩ := ran
    obtain ⟨_, _, around⟩ := run_of_within ran
    obtain ⟨_, _, inside⟩ := run_of_within around
    simp only [Stmt.unresolved, Option.map_some, unresolved_of_superclass ranParent,
      unresolved_of_methods _ members inside]
  | .ret _ _, _, _, _, ran => by
    simp only [stmt, run_bind_ok, run_pure_ok] at ran
    obtain ⟨_, _, _, _, _, _, _, _, ran, rfl, -⟩ := ran
    simp only [Stmt.unresolved, unresolved_of_expr? ran]
  | .brk _, _, _, _, ran | .cont _, _, _, _, ran => by
    simp only [stmt, run_bind_ok, run_pure_ok] at ran
    obtain ⟨_, _, _, rfl, -⟩ := ran
    rfl
  | .misfit _, _, _, _, ran => absurd ran run_throw_ok
termination_by structural st => st

/-- So do statements in order. -/
theorem unresolved_of_stmts (context : Context) :
    ∀ (sts : List Stmt) {sts' : List Stmt} {s s' : State},
      (stmts context sts).run s = .ok sts' s' → Stmt.allUnresolved sts' = Stmt.allUnresolved sts
  | [], _, _, _, ran => by
    cases ran
    rfl
  | st :: rest, _, _, _, ran => by
    simp only [stmts, run_bind_ok, run_pure_ok] at ran
    obtain ⟨_, _, ranFirst, _, _, ranRest, rfl, -⟩ := ran
    simp only [Stmt.allUnresolved, unresolved_of_stmt context st ranFirst,
      unresolved_of_stmts context rest ranRest]
termination_by structural sts => sts

/-- So does a function, whose name and parameters are not touched at all.  Its body is resolved in a
scope of its own, and the parameters are declared there before. -/
theorem unresolved_of_function (context : Context) (kind : FunctionKind) :
    ∀ (decl : FunDecl) {decl' : FunDecl} {s s' : State},
      (function context kind decl).run s = .ok decl' s' → decl'.unresolved = decl.unresolved
  | ⟨_, _, body⟩, _, _, _, ran => by
    simp only [function, run_bind_ok, run_pure_ok] at ran
    obtain ⟨_, _, ran, rfl, -⟩ := ran
    obtain ⟨_, _, inside⟩ := run_of_within ran
    obtain ⟨_, _, -, ranBody⟩ := run_bind_ok.mp inside
    simp only [FunDecl.unresolved, unresolved_of_stmts _ body ranBody]
termination_by structural decl => decl

/-- So do the methods of a class, each of them as a function. -/
theorem unresolved_of_methods (context : Context) :
    ∀ (decls : List FunDecl) {decls' : List FunDecl} {s s' : State},
      (methods context decls).run s = .ok decls' s' →
        FunDecl.allUnresolved decls' = FunDecl.allUnresolved decls
  | [], _, _, _, ran => by
    cases ran
    rfl
  | decl :: rest, _, _, _, ran => by
    simp only [methods, run_bind_ok, run_pure_ok] at ran
    obtain ⟨_, _, ranFirst, _, _, ranRest, rfl, -⟩ := ran
    simp only [FunDecl.allUnresolved, unresolved_of_function context _ decl ranFirst,
      unresolved_of_methods context rest ranRest]
termination_by structural decls => decls

end

end Scope

/-- Resolving a program changes nothing but distances.  So the tree without them can be compared
with the tree that was read, whatever names are bound among the globals. -/
theorem Program.unresolved_of_resolve {globals : List String} {p resolved : Program}
    (outcome : (p.resolve globals).outcome = .ok resolved) :
    resolved.unresolved = p.unresolved := by
  unfold Program.resolve at outcome
  dsimp only at outcome
  split at outcome
  · next body s' ran =>
    cases outcome
    exact congrArg Program.mk (Scope.unresolved_of_stmts {} p.body ran)
  · cases outcome

/-- A well-formed program is well-formed when it is resolved. -/
theorem Program.formed_of_resolve {token : Token → Prop} {globals : List String}
    {p resolved : Program} (outcome : (p.resolve globals).outcome = .ok resolved)
    (formed : Stmt.AllFormed token p.body) : Stmt.AllFormed token resolved.body := by
  have same : Stmt.allUnresolved resolved.body = Stmt.allUnresolved p.body :=
    congrArg Program.body (Program.unresolved_of_resolve outcome)
  rw [← Stmt.allFormed_unresolved, same]
  exact (Stmt.allFormed_unresolved p.body).mpr formed

end Arbor
