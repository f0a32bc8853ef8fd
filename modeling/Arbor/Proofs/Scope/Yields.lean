import Arbor.Proofs.Scope.Effect

/-!
# Resolution without a report, taken apart

A walk that returns and leaves no report has returned at every place it came to, and found nothing
to report there.  `ExprCase`, `StmtCase` and `function_yields` say this node by node: for each node
how its parts were resolved, in which states, and which reports were not made.  Later proofs cite
these and never open the resolver again.

## Main statements

* `Yields.exprCase`, `Yields.stmtCase`, `function_yields`: one case for each kind of node.
* `stmts_yields_append`, `exprs_yields_append`, `methods_yields_append`: lists, split at an element.
-/

namespace Arbor
namespace Scope

open Stateful

variable {α β : Type} {context : Context} {s s₁ s' : State}

/-- A walk returns, and nothing has been reported by then. -/
structure Yields (x : Resolve α) (s : State) (a : α) (s' : State) : Prop where
  run : x.run s = .ok a s'
  silent : s'.reports = #[]

/-! ### Lists -/

theorem exprs_eq_mapM (es : List Expr) : exprs context es = es.mapM (expr context) := by
  induction es with
  | nil => rfl
  | cons e rest ih => rw [exprs, List.mapM_cons, ih]

theorem stmts_eq_mapM (sts : List Stmt) : stmts context sts = sts.mapM (stmt context) := by
  induction sts with
  | nil => rfl
  | cons st rest ih => rw [stmts, List.mapM_cons, ih]

theorem methods_eq_mapM (decls : List FunDecl) :
    methods context decls =
      decls.mapM fun decl => function context (methodKind decl.name) decl := by
  induction decls with
  | nil => rfl
  | cons decl rest ih => rw [methods, List.mapM_cons, ih]

/-- A walk along a list of which every step only adds reports only adds reports. -/
theorem mapM_grows {walk : α → Resolve β}
    (grows : ∀ x y s s', (walk x).run s = .ok y s' → s.reports.size ≤ s'.reports.size) :
    ∀ {xs : List α} {ys : List β} {s s' : State},
      (xs.mapM walk).run s = .ok ys s' → s.reports.size ≤ s'.reports.size := by
  intro xs
  induction xs with
  | nil =>
    intro ys s s' ran
    cases ran
    exact Nat.le_refl _
  | cons x rest ih =>
    intro ys s s' ran
    simp only [List.mapM_cons, run_bind_ok, run_pure_ok] at ran
    obtain ⟨_, _, ranFirst, _, _, ranRest, -, rfl⟩ := ran
    exact Nat.le_trans (grows _ _ _ _ ranFirst) (ih ranRest)

/-- A walk along a list, split at an element.  As nothing was reported in the end, nothing had been
reported at the element or before. -/
theorem mapM_yields_split {walk : α → Resolve β} {before after : List α} {x : α} {ys : List β}
    (grows : ∀ x y s s', (walk x).run s = .ok y s' → s.reports.size ≤ s'.reports.size)
    (yields : Yields ((before ++ x :: after).mapM walk) s ys s') :
    ∃ before' y s₁ s₂, Yields (before.mapM walk) s before' s₁ ∧ Yields (walk x) s₁ y s₂ := by
  obtain ⟨ran, silent⟩ := yields
  simp only [List.mapM_append, List.mapM_cons, run_bind_ok, run_pure_ok] at ran
  obtain ⟨before', s₁, ranBefore, _, _, ⟨y, s₂, ranHere, _, _, ranAfter, rfl, rfl⟩, -, rfl⟩ := ran
  have middle := silent_of_le (mapM_grows grows ranAfter) silent
  have start := silent_of_le (grows _ _ _ _ ranHere) middle
  exact ⟨before', y, s₁, s₂, ⟨ranBefore, start⟩, ranHere, middle⟩

/-- A walk along a list, split at an element of what it returned.  Reports only grow, so the part up
to the element is silent if the whole is. -/
theorem mapM_yields_append {walk : α → Resolve β} {xs : List α} {before' after' : List β} {y : β}
    (grows : ∀ x y s s', (walk x).run s = .ok y s' → s.reports.size ≤ s'.reports.size)
    (yields : Yields (xs.mapM walk) s (before' ++ y :: after') s') :
    ∃ before x after s₁ s₂, xs = before ++ x :: after ∧
      Yields (before.mapM walk) s before' s₁ ∧ Yields (walk x) s₁ y s₂ := by
  induction before' generalizing xs s with
  | nil =>
    obtain ⟨ran, silent⟩ := yields
    cases xs with
    | nil => cases ran
    | cons x rest =>
      simp only [List.mapM_cons, run_bind_ok, run_pure_ok] at ran
      obtain ⟨_, s₂, ranFirst, _, _, ranRest, same, rfl⟩ := ran
      cases same
      have middle := silent_of_le (mapM_grows grows ranRest) silent
      have start := silent_of_le (grows _ _ _ _ ranFirst) middle
      exact ⟨[], x, rest, s, s₂, rfl, ⟨rfl, start⟩, ranFirst, middle⟩
  | cons first' before' ih =>
    obtain ⟨ran, silent⟩ := yields
    cases xs with
    | nil => cases ran
    | cons first rest =>
      simp only [List.mapM_cons, run_bind_ok, run_pure_ok] at ran
      obtain ⟨_, s₁, ranFirst, _, _, ranRest, same, rfl⟩ := ran
      cases same
      obtain ⟨before, x, after, s₂, s₃, rfl, ⟨ranBefore, quiet⟩, here⟩ := ih ⟨ranRest, silent⟩
      refine ⟨first :: before, x, after, s₂, s₃, rfl, ⟨?_, quiet⟩, here⟩
      simp only [List.mapM_cons, run_bind_ok, run_pure_ok]
      exact ⟨_, s₁, ranFirst, _, s₂, ranBefore, rfl, rfl⟩

/-- The resolution of a list of expressions, split at an element of the resolved list. -/
theorem exprs_yields_append {es before' after' : List Expr} {e' : Expr}
    (yields : Yields (exprs context es) s (before' ++ e' :: after') s') :
    ∃ before e after s₁ s₂, es = before ++ e :: after ∧
      Yields (exprs context before) s before' s₁ ∧ Yields (expr context e) s₁ e' s₂ := by
  simp only [exprs_eq_mapM] at yields ⊢
  exact mapM_yields_append (fun _ _ _ _ ran => (expr_effect _ _ ran).reports) yields

/-- The resolution of a list of statements, split at an element of the resolved list. -/
theorem stmts_yields_append {sts before' after' : List Stmt} {st' : Stmt}
    (yields : Yields (stmts context sts) s (before' ++ st' :: after') s') :
    ∃ before st after s₁ s₂, sts = before ++ st :: after ∧
      Yields (stmts context before) s before' s₁ ∧ Yields (stmt context st) s₁ st' s₂ := by
  simp only [stmts_eq_mapM] at yields ⊢
  exact mapM_yields_append (fun _ _ _ _ ran => (stmt_effect _ _ ran).2.reports) yields

/-- The resolution of a list of methods, split at an element of the resolved list. -/
theorem methods_yields_append {decls before' after' : List FunDecl} {decl' : FunDecl}
    (yields : Yields (methods context decls) s (before' ++ decl' :: after') s') :
    ∃ before decl after s₁ s₂, decls = before ++ decl :: after ∧
      Yields (methods context before) s before' s₁ ∧
      Yields (function context (methodKind decl.name) decl) s₁ decl' s₂ := by
  simp only [methods_eq_mapM] at yields ⊢
  exact mapM_yields_append (fun _ _ _ _ ran => (function_effect _ _ _ ran).2.reports) yields

/-- The resolution of a list of expressions, split at an element of the list. -/
theorem exprs_yields_split {before after es' : List Expr} {e : Expr}
    (yields : Yields (exprs context (before ++ e :: after)) s es' s') :
    ∃ before' e' s₁ s₂, Yields (exprs context before) s before' s₁ ∧
      Yields (expr context e) s₁ e' s₂ := by
  simp only [exprs_eq_mapM] at yields ⊢
  exact mapM_yields_split (fun _ _ _ _ ran => (expr_effect _ _ ran).reports) yields

/-- The resolution of a list of statements, split at an element of the list. -/
theorem stmts_yields_split {before after sts' : List Stmt} {st : Stmt}
    (yields : Yields (stmts context (before ++ st :: after)) s sts' s') :
    ∃ before' st' s₁ s₂, Yields (stmts context before) s before' s₁ ∧
      Yields (stmt context st) s₁ st' s₂ := by
  simp only [stmts_eq_mapM] at yields ⊢
  exact mapM_yields_split (fun _ _ _ _ ran => (stmt_effect _ _ ran).2.reports) yields

/-- The resolution of a list of methods, split at an element of the list. -/
theorem methods_yields_split {before after decls' : List FunDecl} {decl : FunDecl}
    (yields : Yields (methods context (before ++ decl :: after)) s decls' s') :
    ∃ before' decl' s₁ s₂, Yields (methods context before) s before' s₁ ∧
      Yields (function context (methodKind decl.name) decl) s₁ decl' s₂ := by
  simp only [methods_eq_mapM] at yields ⊢
  exact mapM_yields_split (fun _ _ _ _ ran => (function_effect _ _ _ ran).2.reports) yields

/-! ### Expressions -/

/-- The ways in which an expression is resolved without a report. -/
inductive ExprCase (context : Context) (s : State) : Expr → Expr → State → Prop
  | literal (value : Constant) : ExprCase context s (.literal value) (.literal value) s
  | grouping {inner inner' : Expr} {s' : State} (part : Yields (expr context inner) s inner' s') :
      ExprCase context s (.grouping inner) (.grouping inner') s'
  | var {name : Token} {hops : Option Nat} {s' : State}
      (ready : s.isUnready name.lexeme = false) :
      ExprCase context s (.var name hops) (.var name (distance? s.scopes name.lexeme)) s'
  | assign {name : Token} {value value' : Expr} {hops : Option Nat} {s₁ s' : State}
      (part : Yields (expr context value) s value' s₁) :
      ExprCase context s (.assign name value hops)
        (.assign name value' (distance? s.scopes name.lexeme)) s'
  | unary {operator : Token} {right right' : Expr} {s' : State}
      (part : Yields (expr context right) s right' s') :
      ExprCase context s (.unary operator right) (.unary operator right') s'
  | binary {operator : Token} {left left' right right' : Expr} {s₁ s' : State}
      (first : Yields (expr context left) s left' s₁)
      (second : Yields (expr context right) s₁ right' s') :
      ExprCase context s (.binary left operator right) (.binary left' operator right') s'
  | logical {operator : Token} {left left' right right' : Expr} {s₁ s' : State}
      (first : Yields (expr context left) s left' s₁)
      (second : Yields (expr context right) s₁ right' s') :
      ExprCase context s (.logical left operator right) (.logical left' operator right') s'
  | call {callee callee' : Expr} {paren : Token} {arguments arguments' : List Expr}
      {s₁ s' : State} (first : Yields (expr context callee) s callee' s₁)
      (second : Yields (exprs context arguments) s₁ arguments' s') :
      ExprCase context s (.call callee paren arguments) (.call callee' paren arguments') s'
  | getField {object object' : Expr} {name : Token} {s' : State}
      (part : Yields (expr context object) s object' s') :
      ExprCase context s (.getField object name) (.getField object' name) s'
  | setField {object object' value value' : Expr} {name : Token} {s₁ s' : State}
      (first : Yields (expr context value) s value' s₁)
      (second : Yields (expr context object) s₁ object' s') :
      ExprCase context s (.setField object name value) (.setField object' name value') s'
  | this {keyword : Token} {hops : Option Nat} {s' : State} (fine : thisError? context = none) :
      ExprCase context s (.this keyword hops) (.this keyword (distance? s.scopes keyword.lexeme)) s'
  | super {keyword method : Token} {hops : Option Nat} {s' : State}
      (fine : superError? context = none) :
      ExprCase context s (.super keyword method hops)
        (.super keyword method (distance? s.scopes keyword.lexeme)) s'

/-- What an expression yields without a report, case by case: the parts yield theirs, each in the
state that the parts before it left. -/
theorem Yields.exprCase {e e' : Expr} (yields : Yields (expr context e) s e' s') :
    ExprCase context s e e' s' := by
  obtain ⟨ran, silent⟩ := yields
  cases e with
  | literal value =>
    cases ran
    exact .literal value
  | grouping inner =>
    simp only [expr, run_bind_ok, run_pure_ok] at ran
    obtain ⟨_, _, ran, rfl, rfl⟩ := ran
    exact .grouping ⟨ran, silent⟩
  | var name hops =>
    simp only [expr, run_bind_ok, run_pure_ok, run_get_ok] at ran
    obtain ⟨_, _, ⟨rfl, rfl⟩, _, _, reported, _, _, linked, rfl, rfl⟩ := ran
    obtain ⟨rfl, effect⟩ := link_effect linked
    obtain ⟨ready, rfl⟩ := reportIf_silent reported (effect.silent silent)
    exact .var ready
  | assign name value hops =>
    simp only [expr, run_bind_ok, run_pure_ok] at ran
    obtain ⟨_, s₁, ran, _, _, linked, rfl, rfl⟩ := ran
    obtain ⟨rfl, effect⟩ := link_effect linked
    rw [(expr_effect context value ran).scopes]
    exact .assign ⟨ran, effect.silent silent⟩
  | unary operator right =>
    simp only [expr, run_bind_ok, run_pure_ok] at ran
    obtain ⟨_, _, ran, rfl, rfl⟩ := ran
    exact .unary ⟨ran, silent⟩
  | binary left operator right =>
    simp only [expr, run_bind_ok, run_pure_ok] at ran
    obtain ⟨_, _, ranLeft, _, _, ranRight, rfl, rfl⟩ := ran
    exact .binary ⟨ranLeft, (expr_effect _ _ ranRight).silent silent⟩ ⟨ranRight, silent⟩
  | logical left operator right =>
    simp only [expr, run_bind_ok, run_pure_ok] at ran
    obtain ⟨_, _, ranLeft, _, _, ranRight, rfl, rfl⟩ := ran
    exact .logical ⟨ranLeft, (expr_effect _ _ ranRight).silent silent⟩ ⟨ranRight, silent⟩
  | call callee paren arguments =>
    simp only [expr, run_bind_ok, run_pure_ok] at ran
    obtain ⟨_, _, ranCallee, _, _, ranRest, rfl, rfl⟩ := ran
    exact .call ⟨ranCallee, (exprs_effect _ _ ranRest).silent silent⟩ ⟨ranRest, silent⟩
  | getField object name =>
    simp only [expr, run_bind_ok, run_pure_ok] at ran
    obtain ⟨_, _, ran, rfl, rfl⟩ := ran
    exact .getField ⟨ran, silent⟩
  | setField object name value =>
    simp only [expr, run_bind_ok, run_pure_ok] at ran
    obtain ⟨_, _, ranValue, _, _, ranObject, rfl, rfl⟩ := ran
    exact .setField ⟨ranValue, (expr_effect _ _ ranObject).silent silent⟩ ⟨ranObject, silent⟩
  | this keyword hops =>
    simp only [expr, run_bind_ok, run_pure_ok] at ran
    obtain ⟨_, _, linked, rfl, rfl⟩ := ran
    obtain ⟨fine, rfl⟩ := linkUnless_silent linked silent
    exact .this fine
  | super keyword method hops =>
    simp only [expr, run_bind_ok, run_pure_ok] at ran
    obtain ⟨_, _, linked, rfl, rfl⟩ := ran
    obtain ⟨fine, rfl⟩ := linkUnless_silent linked silent
    exact .super fine
  | misfit what => exact absurd ran run_throw_ok

theorem expr?_yields_some {e? : Option Expr} {e' : Expr}
    (yields : Yields (expr? context e?) s (some e') s') :
    ∃ e, e? = some e ∧ Yields (expr context e) s e' s' := by
  obtain ⟨ran, silent⟩ := yields
  cases e? with
  | none => cases ran
  | some e =>
    obtain ⟨_, ran, same⟩ := run_map_ok.mp ran
    cases same
    exact ⟨e, rfl, ran, silent⟩

/-! ### Statements -/

/-- The ways in which a statement is resolved without a report. -/
inductive StmtCase (context : Context) (s : State) : Stmt → Stmt → Prop
  | expr {e e' : Expr} {s' : State} (part : Yields (expr context e) s e' s') :
      StmtCase context s (.expr e) (.expr e')
  | print {e e' : Expr} {s' : State} (part : Yields (Scope.expr context e) s e' s') :
      StmtCase context s (.print e) (.print e')
  | varDecl {name : Token} {initializer initializer' : Option Expr} {s₁ s' : State}
      (declared : Yields (declare name) s () s₁)
      (part : Yields (expr? context initializer) s₁ initializer' s') :
      StmtCase context s (.varDecl name initializer) (.varDecl name initializer')
  | block {statements statements' : List Stmt} {s' : State}
      (part : Yields (stmts context statements) (s.opened []) statements' s') :
      StmtCase context s (.block statements) (.block statements')
  | ifThen {condition condition' : Expr} {thenBranch thenBranch' : Stmt} {s₁ s' : State}
      (first : Yields (Scope.expr context condition) s condition' s₁)
      (second : Yields (stmt context thenBranch) s₁ thenBranch' s') :
      StmtCase context s (.ifElse condition thenBranch none) (.ifElse condition' thenBranch' none)
  | ifElse {condition condition' : Expr} {thenBranch thenBranch' elseBranch elseBranch' : Stmt}
      {s₁ s₂ s' : State} (first : Yields (Scope.expr context condition) s condition' s₁)
      (second : Yields (stmt context thenBranch) s₁ thenBranch' s₂)
      (third : Yields (stmt context elseBranch) s₂ elseBranch' s') :
      StmtCase context s (.ifElse condition thenBranch (some elseBranch))
        (.ifElse condition' thenBranch' (some elseBranch'))
  | loop {condition condition' : Expr} {body body' : Stmt} {s₁ s' : State}
      (first : Yields (Scope.expr context condition) s condition' s₁)
      (second : Yields (stmt { context with inLoop := true } body) s₁ body' s') :
      StmtCase context s (.loop condition body) (.loop condition' body')
  | funDecl {decl decl' : FunDecl} {s₁ s' : State}
      (named : Yields (do declare decl.name; define decl.name) s () s₁)
      (part : Yields (function context .function decl) s₁ decl' s') :
      StmtCase context s (.funDecl decl) (.funDecl decl')
  | plainClass {name : Token} {members members' : List FunDecl} {s₁ s' : State}
      (named : Yields (do declare name; define name) s () s₁)
      (part : Yields (methods { context with inClass := some .plain } members)
        (s₁.opened ["this"]) members' s') :
      StmtCase context s (.classDecl name none members) (.classDecl name none members')
  | derivedClass {name : Token} {parent : Superclass} {value' : Expr}
      {members members' : List FunDecl} {s₁ s₂ s' : State}
      (named : Yields (do declare name; define name) s () s₁)
      (other : (parent.name.lexeme == name.lexeme) = false)
      (first : Yields (Scope.expr { context with inClass := some .derived } parent.value) s₁
        value' s₂)
      (second : Yields (methods { context with inClass := some .derived } members)
        ((s₂.opened ["super"]).opened ["this"]) members' s') :
      StmtCase context s (.classDecl name (some parent) members)
        (.classDecl name (some { parent with value := value' }) members')
  | ret {keyword : Token} {value value' : Option Expr} {s' : State}
      (inside : context.function.isNone = false)
      (plain : (value.isSome && context.function == some .initializer) = false)
      (part : Yields (expr? context value) s value' s') :
      StmtCase context s (.ret keyword value) (.ret keyword value')
  | brk {keyword : Token} (inside : context.inLoop) :
      StmtCase context s (.brk keyword) (.brk keyword)
  | cont {keyword : Token} (inside : context.inLoop) :
      StmtCase context s (.cont keyword) (.cont keyword)
  | bare {e e' : Expr} {s' : State} (part : Yields (Scope.expr context e) s e' s') :
      StmtCase context s (.bare e) (.bare e')

/-- What a statement yields without a report, case by case.  Silence goes backwards from the end, so
no part and no check made a report. -/
theorem Yields.stmtCase {st st' : Stmt} (yields : Yields (stmt context st) s st' s') :
    StmtCase context s st st' := by
  obtain ⟨ran, silent⟩ := yields
  cases st with
  | expr e =>
    simp only [stmt, run_bind_ok, run_pure_ok] at ran
    obtain ⟨_, _, ran, rfl, rfl⟩ := ran
    exact .expr ⟨ran, silent⟩
  | print e =>
    simp only [stmt, run_bind_ok, run_pure_ok] at ran
    obtain ⟨_, _, ran, rfl, rfl⟩ := ran
    exact .print ⟨ran, silent⟩
  | varDecl name initializer =>
    simp only [stmt, run_bind_ok, run_pure_ok] at ran
    obtain ⟨_, _, declared, _, _, ran, _, _, defined, rfl, rfl⟩ := ran
    -- silence goes backwards, from each state to the one before it
    have quiet := (define_effect defined).silent silent
    exact .varDecl ⟨declared, (expr?_effect ran).silent quiet⟩ ⟨ran, quiet⟩
  | block statements =>
    simp only [stmt, run_bind_ok, run_pure_ok] at ran
    obtain ⟨_, _, ran, rfl, rfl⟩ := ran
    obtain ⟨s₁, inside, rfl⟩ := within_run.mp ran
    exact .block ⟨inside, silent⟩
  | ifElse condition thenBranch elseBranch =>
    cases elseBranch with
    | none =>
      simp only [stmt, run_bind_ok, run_pure_ok] at ran
      obtain ⟨_, _, ranCondition, _, _, ranThen, rfl, rfl⟩ := ran
      exact .ifThen ⟨ranCondition, (stmt_effect _ _ ranThen).2.silent silent⟩ ⟨ranThen, silent⟩
    | some elseBranch =>
      simp only [stmt, run_bind_ok, run_pure_ok] at ran
      obtain ⟨_, _, ranCondition, _, _, ranThen, _, _, ranElse, rfl, rfl⟩ := ran
      have quiet := (stmt_effect _ _ ranElse).2.silent silent
      exact .ifElse ⟨ranCondition, (stmt_effect _ _ ranThen).2.silent quiet⟩ ⟨ranThen, quiet⟩
        ⟨ranElse, silent⟩
  | loop condition body =>
    simp only [stmt, run_bind_ok, run_pure_ok] at ran
    obtain ⟨_, _, ranCondition, _, _, ranBody, rfl, rfl⟩ := ran
    exact .loop ⟨ranCondition, (stmt_effect _ _ ranBody).2.silent silent⟩ ⟨ranBody, silent⟩
  | funDecl decl =>
    simp only [stmt, run_bind_ok, run_pure_ok] at ran
    obtain ⟨_, s₁, declared, _, s₂, defined, _, _, ran, rfl, rfl⟩ := ran
    have quiet := (function_effect _ _ _ ran).2.silent silent
    exact .funDecl ⟨run_bind_ok.mpr ⟨_, s₁, declared, defined⟩, quiet⟩ ⟨ran, silent⟩
  | classDecl name parent members =>
    cases parent with
    | none =>
      simp only [stmt, run_bind_ok, run_pure_ok] at ran
      obtain ⟨_, s₁, declared, _, s₂, defined, _, _, ran, rfl, rfl⟩ := ran
      obtain ⟨s₃, inside, rfl⟩ := within_run.mp ran
      have quiet : s₂.reports = #[] := (methods_effect _ _ inside).silent silent
      exact .plainClass ⟨run_bind_ok.mpr ⟨_, s₁, declared, defined⟩, quiet⟩ ⟨inside, silent⟩
    | some parent =>
      simp only [stmt, superclass, run_bind_ok, run_pure_ok] at ran
      obtain ⟨_, s₁, declared, _, s₂, defined, _, _, ⟨_, s₃, reported, _, s₄, ranParent, rfl, rfl⟩,
        _, _, ran, rfl, rfl⟩ := ran
      obtain ⟨s₅, around, rfl⟩ := within_run.mp ran
      obtain ⟨s₆, inside, rfl⟩ := within_run.mp around
      have quiet : s₄.reports = #[] := (methods_effect _ _ inside).silent silent
      have quiet' := (expr_effect _ _ ranParent).silent quiet
      obtain ⟨other, rfl⟩ := reportIf_silent reported quiet'
      exact .derivedClass ⟨run_bind_ok.mpr ⟨_, s₁, declared, defined⟩, quiet'⟩ other
        ⟨ranParent, quiet⟩ ⟨inside, silent⟩
  | ret keyword value =>
    simp only [stmt, run_bind_ok, run_pure_ok] at ran
    obtain ⟨_, _, atTop, _, _, fromInit, _, _, ran, rfl, rfl⟩ := ran
    obtain ⟨plain, rfl⟩ := reportIf_silent fromInit ((expr?_effect ran).silent silent)
    obtain ⟨inside, rfl⟩ := reportIf_silent atTop ((expr?_effect ran).silent silent)
    exact .ret inside plain ⟨ran, silent⟩
  | brk keyword =>
    simp only [stmt, run_bind_ok, run_pure_ok] at ran
    obtain ⟨_, _, reported, rfl, rfl⟩ := ran
    exact .brk (by simpa using (reportIf_silent reported silent).1)
  | cont keyword =>
    simp only [stmt, run_bind_ok, run_pure_ok] at ran
    obtain ⟨_, _, reported, rfl, rfl⟩ := ran
    exact .cont (by simpa using (reportIf_silent reported silent).1)
  | bare e =>
    simp only [stmt, run_bind_ok, run_pure_ok] at ran
    obtain ⟨_, _, ran, rfl, rfl⟩ := ran
    exact .bare ⟨ran, silent⟩
  | misfit what => exact absurd ran run_throw_ok

/-! ### Functions -/

/-- How a function is resolved without a report: its parameters are declared in a new scope, and its
body is resolved in the same one. -/
theorem function_yields {kind : FunctionKind} {name : Token} {params : List Token}
    {body : List Stmt} {decl' : FunDecl}
    (yields : Yields (function context kind ⟨name, params, body⟩) s decl' s') :
    ∃ s₁ body' s₂, decl' = ⟨name, params, body'⟩ ∧
      Yields (declareAll params) (s.opened []) () s₁ ∧
      Yields (stmts { context with function := some kind, inLoop := false } body) s₁ body' s₂ := by
  obtain ⟨ran, silent⟩ := yields
  simp only [function, run_bind_ok, run_pure_ok] at ran
  obtain ⟨body', _, ran, rfl, rfl⟩ := ran
  obtain ⟨s₂, inside, rfl⟩ := within_run.mp ran
  rw [run_bind_ok] at inside
  obtain ⟨_, s₁, declared, ranBody⟩ := inside
  exact ⟨s₁, body', s₂, rfl, ⟨declared, (stmts_effect _ _ ranBody).2.silent silent⟩, ranBody,
    silent⟩

end Scope
end Arbor
