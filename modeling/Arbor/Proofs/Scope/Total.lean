import Arbor.Proofs.Stateful
import Arbor.Proofs.Program.Formed
import Arbor.Scope

/-!
# Resolution of well-formed programs

Resolution stops early at misfits only, and a well-formed program has none: whatever is reported on
it, it is resolved to the end.

## Main statements

* `Scope.stmts_finishes`: well-formed statements are resolved.
* `Program.exists_resolve`: so are programs.
-/

namespace Arbor
namespace Scope

open Stateful

variable {α β : Type} {token : Token → Prop}

/-- A walk that does not stop early, wherever it starts. -/
def Finishes (x : Resolve α) : Prop :=
  ∀ s, Ensures x s (fun _ _ => True) fun _ _ => False

namespace Finishes

/-- A result without any step is reached. -/
theorem pure (a : α) : Finishes (Pure.pure a) :=
  fun _ => trivial

/-- A change of the state stops nothing. -/
theorem modify (f : State → State) : Finishes (modify f) :=
  fun _ => trivial

/-- Where the first part is finished whatever it is begun with, and so is the second, the two are
finished one after the other: the second does not care how the first one left the state. -/
theorem bind {x : Resolve α} {k : α → Resolve β} (first : Finishes x)
    (second : ∀ a, Finishes (k a)) : Finishes (x >>= k) :=
  fun s => (first s).bind fun a s' _ _ => second a s'

/-- Changing the result does not change whether there is one. -/
theorem map {x : Resolve α} {g : α → β} (first : Finishes x) : Finishes (g <$> x) :=
  fun s => (first s).map

end Finishes

/-! ### Names -/

/-- A report is put on record and does not end the walk, which is why errors in one place do not
hide those in another. -/
theorem reportIf_finishes (condition : Bool) (name : Token) (error : ScopeError) :
    Finishes (reportIf condition name error) := by
  unfold reportIf
  split
  · exact .modify _
  · exact .pure _

/-- A declaration may report that the name is there already, and goes on. -/
theorem declare_finishes (name : Token) : Finishes (declare name) := by
  refine .bind (fun _ => trivial) fun s => ?_
  split
  · split
    · exact .pure _
    · exact .modify _
  · exact .bind (reportIf_finishes _ _ _) fun _ => .modify _

/-- A name is made ready by a change of the state. -/
theorem define_finishes (name : Token) : Finishes (define name) :=
  .modify _

/-- Parameters are declared one by one, and a repeated one stops nothing. -/
theorem declareAll_finishes : ∀ params : List Token, Finishes (declareAll params)
  | [] => .pure _
  | name :: rest =>
    .bind (declare_finishes name) fun _ => .bind (define_finishes name) fun _ =>
      declareAll_finishes rest

/-- A reference is linked to a scope or to the globals, and one of these is always possible. -/
theorem link_finishes (kind : NodeKind) (name : Token) : Finishes (link kind name) :=
  fun _ => trivial

/-- A keyword out of place is reported and left without a link; otherwise it is linked. -/
theorem linkUnless_finishes (error? : Option ScopeError) (kind : NodeKind) (keyword : Token) :
    Finishes (linkUnless error? kind keyword) := by
  cases error? with
  | none => exact link_finishes kind keyword
  | some error => exact .bind (.modify _) fun _ => .pure _

/-- A walk in a scope of its own is finished if the walk is: the scope is opened and closed around
it. -/
theorem within_finishes {ready : List String} {body : Resolve α} (inner : Finishes body) :
    Finishes (within ready body) :=
  .bind (.modify _) fun _ => .bind inner fun _ => .bind (.modify _) fun _ => .pure _

/-! ### Expressions -/

mutual

/-- Well-formed expressions are resolved.  The induction is on the expression, and the hypothesis is
used at the one form that has no place in a tree, a misfit. -/
theorem expr_finishes (context : Context) : ∀ e : Expr, e.Formed token → Finishes (expr context e)
  | .literal _, _ => .pure _
  | .grouping inner, formed => .bind (expr_finishes context inner formed) fun _ => .pure _
  | .var _ _, _ =>
    .bind (fun _ => trivial) fun _ => .bind (reportIf_finishes _ _ _) fun _ =>
      .bind (link_finishes _ _) fun _ => .pure _
  | .assign _ value _, formed =>
    .bind (expr_finishes context value formed.2.2) fun _ => .bind (link_finishes _ _) fun _ =>
      .pure _
  | .unary _ right, formed =>
    .bind (expr_finishes context right formed.2.2) fun _ => .pure _
  | .binary left _ right, formed =>
    .bind (expr_finishes context left formed.2.2.1) fun _ =>
      .bind (expr_finishes context right formed.2.2.2) fun _ => .pure _
  | .logical left _ right, formed =>
    .bind (expr_finishes context left formed.2.2.1) fun _ =>
      .bind (expr_finishes context right formed.2.2.2) fun _ => .pure _
  | .call callee _ arguments, formed =>
    .bind (expr_finishes context callee formed.2.2.1) fun _ =>
      .bind (exprs_finishes context arguments formed.2.2.2) fun _ => .pure _
  | .getField object _, formed =>
    .bind (expr_finishes context object formed.2.2) fun _ => .pure _
  | .setField object _ value, formed =>
    .bind (expr_finishes context value formed.2.2.2) fun _ =>
      .bind (expr_finishes context object formed.2.2.1) fun _ => .pure _
  | .this _ _, _ => .bind (linkUnless_finishes _ _ _) fun _ => .pure _
  | .super _ _ _, _ => .bind (linkUnless_finishes _ _ _) fun _ => .pure _
  | .misfit _, formed => formed.elim
termination_by structural e => e

/-- So are lists of them, such as the arguments of a call. -/
theorem exprs_finishes (context : Context) : ∀ es : List Expr, Expr.AllFormed token es →
    Finishes (exprs context es)
  | [], _ => .pure _
  | e :: rest, formed =>
    .bind (expr_finishes context e formed.1) fun _ =>
      .bind (exprs_finishes context rest formed.2) fun _ => .pure _
termination_by structural es => es

end

/-- So are expressions that may be absent: the value of a return, the initializer of a variable. -/
theorem expr?_finishes (context : Context) {e? : Option Expr} (formed : Expr.OptionFormed token e?) :
    Finishes (expr? context e?) := by
  cases e? with
  | none => exact .pure _
  | some e => exact .map (expr_finishes context e formed)

/-! ### Statements -/

/-- A superclass is an expression of its own, linked like a variable.  A class that names itself is
reported, and the walk goes on. -/
theorem superclass_finishes (context : Context) (name : Token) {parent : Superclass}
    (formed : parent.Formed token) : Finishes (superclass context name parent) := by
  obtain ⟨kind, fine, hops, value⟩ := formed
  refine .bind (reportIf_finishes _ _ _) fun _ => .bind ?_ fun _ => .pure _
  rw [value]
  exact @expr_finishes token _ (.var parent.name hops) ⟨kind, fine⟩

mutual

/-- Well-formed statements are resolved.  The induction is on the statement, together with the lists
and the declarations inside it. -/
theorem stmt_finishes (context : Context) : ∀ st : Stmt, st.Formed token →
    Finishes (stmt context st)
  | .expr e, formed => .bind (expr_finishes context e formed) fun _ => .pure _
  | .print e, formed => .bind (expr_finishes context e formed) fun _ => .pure _
  | .varDecl name _, formed =>
    .bind (declare_finishes name) fun _ => .bind (expr?_finishes context formed.2.2) fun _ =>
      .bind (define_finishes name) fun _ => .pure _
  | .block statements, formed =>
    .bind (within_finishes (stmts_finishes context statements formed)) fun _ => .pure _
  | .ifElse condition thenBranch none, formed =>
    .bind (expr_finishes context condition formed.1) fun _ =>
      .bind (stmt_finishes context thenBranch formed.2.2) fun _ => .pure _
  | .ifElse condition thenBranch (some elseBranch), formed =>
    .bind (expr_finishes context condition formed.1) fun _ =>
      .bind (stmt_finishes context thenBranch formed.2.2.1) fun _ =>
        .bind (stmt_finishes context elseBranch formed.2.2.2.2) fun _ => .pure _
  | .loop condition body, formed =>
    .bind (expr_finishes context condition formed.1) fun _ =>
      .bind (stmt_finishes _ body formed.2.2) fun _ => .pure _
  | .funDecl decl, formed =>
    .bind (declare_finishes _) fun _ => .bind (define_finishes _) fun _ =>
      .bind (function_finishes context .function decl formed) fun _ => .pure _
  | .classDecl _ none members, formed =>
    .bind (declare_finishes _) fun _ => .bind (define_finishes _) fun _ =>
      .bind (within_finishes (methods_finishes _ members formed.2.2)) fun _ => .pure _
  | .classDecl name (some _) members, formed =>
    .bind (declare_finishes _) fun _ => .bind (define_finishes _) fun _ =>
      .bind (superclass_finishes context name formed.2.2.1) fun _ =>
        .bind (within_finishes (within_finishes (methods_finishes _ members formed.2.2.2)))
          fun _ => .pure _
  | .ret _ _, formed =>
    .bind (reportIf_finishes _ _ _) fun _ => .bind (reportIf_finishes _ _ _) fun _ =>
      .bind (expr?_finishes context formed.2.2) fun _ => .pure _
  | .brk _, _ => .bind (reportIf_finishes _ _ _) fun _ => .pure _
  | .cont _, _ => .bind (reportIf_finishes _ _ _) fun _ => .pure _
  | .bare _, formed => formed.elim
  | .misfit _, formed => formed.elim
termination_by structural st => st

/-- So are lists of them: a report in one statement leaves the later ones to be resolved. -/
theorem stmts_finishes (context : Context) : ∀ sts : List Stmt, Stmt.AllFormed token sts →
    Finishes (stmts context sts)
  | [], _ => .pure _
  | st :: rest, formed =>
    .bind (stmt_finishes context st formed.1) fun _ =>
      .bind (stmts_finishes context rest formed.2) fun _ => .pure _
termination_by structural sts => sts

/-- So are functions and methods, whose parameters and body share one scope. -/
theorem function_finishes (context : Context) (kind : FunctionKind) : ∀ decl : FunDecl,
    decl.Formed token → Finishes (function context kind decl)
  | ⟨_, params, body⟩, formed =>
    .bind (within_finishes (.bind (declareAll_finishes params) fun _ =>
      stmts_finishes _ body formed.2.2.2)) fun _ => .pure _
termination_by structural decl => decl

/-- So are the methods of a class, each with the kind that its name gives it. -/
theorem methods_finishes (context : Context) : ∀ decls : List FunDecl,
    FunDecl.AllFormed token decls → Finishes (methods context decls)
  | [], _ => .pure _
  | decl :: rest, formed =>
    .bind (function_finishes context _ decl formed.1) fun _ =>
      .bind (methods_finishes context rest formed.2) fun _ => .pure _
termination_by structural decls => decls

end

end Scope

/-- A well-formed program is resolved. -/
theorem Program.exists_resolve {token : Token → Prop} {p : Program}
    (formed : Stmt.AllFormed token p.body) (globals : List String) :
    ∃ resolved, (p.resolve globals).outcome = .ok resolved := by
  have finishes := Scope.stmts_finishes {} p.body formed
  unfold Program.resolve
  dsimp only
  split
  · exact ⟨_, rfl⟩
  · next ran => exact ((finishes _).of_error ran).elim

end Arbor
