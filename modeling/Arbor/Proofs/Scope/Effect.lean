import Arbor.Proofs.Stateful
import Arbor.Proofs.Program.Formed
import Arbor.Scope

/-!
# What resolution does to its state

Resolving an expression touches no scope; resolving a statement adds the names it introduces to
the innermost scope, all of them ready, and touches no other.  Reports are only ever added, so a
walk that ends without a report never had one.

## Main statements

* `expr_effect`, `stmt_effect`, `stmts_effect`, `function_effect`, `methods_effect`: the scopes
  behind each walk.  A resolved statement introduces the names it introduced before.
-/

namespace Arbor
namespace Scope

open Stateful

/-! ### Changes of the scopes -/

/-- A scope to which a name has been declared and made ready. -/
def introduced (scope : Bindings Bool) (name : String) : Bindings Bool :=
  (scope.put name false).put name true

/-- The scopes with a name of the innermost one marked as ready or not. -/
def marked (ready : Bool) (name : String) : List (Bindings Bool) → List (Bindings Bool)
  | [] => []
  | scope :: outer => scope.put name ready :: outer

/-- The scopes after the innermost one got some names, ready for use. -/
def introduce (names : List String) : List (Bindings Bool) → List (Bindings Bool)
  | [] => []
  | scope :: outer => names.foldl introduced scope :: outer

/-- No names change nothing. -/
@[simp] theorem introduce_nil (scopes : List (Bindings Bool)) : introduce [] scopes = scopes := by
  cases scopes <;> rfl

/-- Names are introduced in order. -/
theorem introduce_append (names more : List String) (scopes : List (Bindings Bool)) :
    introduce (names ++ more) scopes = introduce more (introduce names scopes) := by
  cases scopes <;> simp [introduce]

/-- One name is introduced in two steps, between which it is known and not ready. -/
theorem introduce_singleton (name : String) (scopes : List (Bindings Bool)) :
    introduce [name] scopes = marked true name (marked false name scopes) := by
  cases scopes <;> rfl

/-- Names go to the innermost scope. -/
@[simp] theorem tail_introduce (names : List String) (scopes : List (Bindings Bool)) :
    (introduce names scopes).tail = scopes.tail := by
  cases scopes <;> rfl

/-- Reports are only added: whoever has none in the end had none in the beginning. -/
theorem silent_of_le {s s' : State} (grown : s.reports.size ≤ s'.reports.size)
    (none : s'.reports = #[]) : s.reports = #[] := by
  rw [none] at grown
  exact Array.eq_empty_of_size_eq_zero (Nat.le_zero.mp grown)

/-- What a walk did to the state: a change of the scopes, and reports that were added. -/
structure Effect (change : List (Bindings Bool) → List (Bindings Bool)) (s s' : State) : Prop where
  scopes : s'.scopes = change s.scopes
  reports : s.reports.size ≤ s'.reports.size

namespace Effect

variable {change more : List (Bindings Bool) → List (Bindings Bool)} {s s₁ s' : State}

theorem refl (s : State) : Effect id s s :=
  ⟨rfl, Nat.le_refl _⟩

/-- Effects one after the other are composed, and reports are only ever added. -/
theorem trans (first : Effect change s s₁) (second : Effect more s₁ s') :
    Effect (more ∘ change) s s' := by
  refine ⟨?_, Nat.le_trans first.reports second.reports⟩
  rw [second.scopes, first.scopes]
  rfl

/-- A walk that ends without a report began without one. -/
theorem silent (effect : Effect change s s') (none : s'.reports = #[]) : s.reports = #[] :=
  silent_of_le effect.reports none

/-- What matters of a change is what it does to the scopes at hand. -/
theorem congr (effect : Effect change s s') (same : change s.scopes = more s.scopes) :
    Effect more s s' :=
  ⟨effect.scopes.trans same, effect.reports⟩

end Effect

/-! ### Names -/

/-- A report touches no scope. -/
theorem reportIf_effect {condition : Bool} {token : Token} {error : ScopeError} {u : Unit}
    {s s' : State} (ran : (reportIf condition token error).run s = .ok u s') : Effect id s s' := by
  unfold reportIf at ran
  split at ran
  · cases ran
    exact ⟨rfl, by simp⟩
  · cases ran
    exact .refl s

/-- Without a report in the end the condition of the report did not hold, and nothing has
changed. -/
theorem reportIf_silent {condition : Bool} {token : Token} {error : ScopeError} {u : Unit}
    {s s' : State} (ran : (reportIf condition token error).run s = .ok u s')
    (none : s'.reports = #[]) : condition = false ∧ s' = s := by
  unfold reportIf at ran
  split at ran
  · cases ran
    simp at none
  · cases ran
    exact ⟨by simpa using ‹¬ condition = true›, rfl⟩

/-- Where the condition fails nothing happens at all. -/
theorem reportIf_false {token : Token} {error : ScopeError} {u : Unit} {s s' : State}
    {condition : Bool} (not : condition = false)
    (ran : (reportIf condition token error).run s = .ok u s') : s' = s := by
  subst not
  cases ran
  rfl

/-- At the top level a name is put among the globals, and stays as it is if it is there. -/
theorem run_declare_top {name : Token} {s : State} (top : s.scopes = []) :
    (declare name).run s = .ok () (if s.globals.contains name.lexeme then s
      else { s with globals := s.globals.put name.lexeme false }) := by
  obtain ⟨scopes, globals, reports, resolutions⟩ := s
  cases top
  cases known : globals.contains name.lexeme <;> simp [declare, known]

/-- Inside, a name that the innermost scope has already is reported, and declared again.  It is not
ready after that, even if it was before. -/
theorem run_declare_local {name : Token} {s : State} {scope : Bindings Bool}
    {outer : List (Bindings Bool)} (scopes : s.scopes = scope :: outer) :
    (declare name).run s = (do
      reportIf (scope.contains name.lexeme) name .alreadyDeclared
      modify fun s => { s with scopes := scope.put name.lexeme false :: outer } :
        Resolve Unit).run s := by
  obtain ⟨_, globals, reports, resolutions⟩ := s
  cases scopes
  rfl

/-- A declaration makes a name known in the innermost scope.  It is not ready yet, and whether it
was known before only makes a difference to what is reported. -/
theorem declare_effect {name : Token} {u : Unit} {s s' : State}
    (ran : (declare name).run s = .ok u s') : Effect (marked false name.lexeme) s s' := by
  unfold declare at ran
  rw [run_bind_ok] at ran
  obtain ⟨_, _, got, ran⟩ := ran
  obtain ⟨rfl, rfl⟩ := run_get_ok.mp got
  cases scopes : s.scopes with
  -- among the globals a name is not marked, only noted
  | nil =>
    simp only [scopes] at ran
    split at ran <;> (cases ran; exact ⟨by simp [scopes, marked], Nat.le_refl _⟩)
  | cons scope outer =>
    simp only [scopes, run_bind_ok] at ran
    obtain ⟨_, s₁, reported, ran⟩ := ran
    have first := reportIf_effect reported
    rw [run_modify_ok] at ran
    subst ran
    exact ⟨by simp [scopes, marked], first.reports⟩

/-- Without a report in the end a local name that is declared was not there before.  Among the
globals this would not follow, as a global may be declared again. -/
theorem declare_silent {name : Token} {u : Unit} {s s' : State} {scope : Bindings Bool}
    {outer : List (Bindings Bool)} (ran : (declare name).run s = .ok u s')
    (none : s'.reports = #[]) (scopes : s.scopes = scope :: outer) :
    scope.contains name.lexeme = false := by
  unfold declare at ran
  rw [run_bind_ok] at ran
  obtain ⟨_, _, got, ran⟩ := ran
  obtain ⟨rfl, rfl⟩ := run_get_ok.mp got
  simp only [scopes, run_bind_ok] at ran
  obtain ⟨_, s₁, reported, ran⟩ := ran
  rw [run_modify_ok] at ran
  subst ran
  exact (reportIf_silent reported none).1

/-- A definition makes it ready there. -/
theorem define_effect {name : Token} {u : Unit} {s s' : State}
    (ran : (define name).run s = .ok u s') : Effect (marked true name.lexeme) s s' := by
  unfold define at ran
  rw [run_modify_ok] at ran
  subst ran
  cases scopes : s.scopes <;> exact ⟨by simp [scopes, marked], Nat.le_refl _⟩

/-- Declaring a name and making it ready. -/
theorem declare_define_effect {name : Token} {u : Unit} {s s' : State}
    (ran : (do declare name; define name : Resolve Unit).run s = .ok u s') :
    Effect (introduce [name.lexeme]) s s' := by
  rw [run_bind_ok] at ran
  obtain ⟨_, s₁, declared, defined⟩ := ran
  exact ((declare_effect declared).trans (define_effect defined)).congr
    (introduce_singleton _ _).symm

/-- Parameters are introduced in their order; the induction is on them.  A parameter is ready at
once, unlike a variable with an initializer. -/
theorem declareAll_effect : ∀ {params : List Token} {u : Unit} {s s' : State},
    (declareAll params).run s = .ok u s' →
      Effect (introduce (params.map Token.lexeme)) s s'
  | [], _, s, s', ran => by
    cases ran
    exact (Effect.refl s).congr (introduce_nil _).symm
  | name :: rest, _, s, s', ran => by
    simp only [declareAll, run_bind_ok] at ran
    obtain ⟨_, s₁, declared, _, s₂, defined, ran⟩ := ran
    have both := declare_define_effect (run_bind_ok.mpr ⟨_, s₁, declared, defined⟩)
    refine (both.trans (declareAll_effect ran)).congr ?_
    exact (introduce_append [name.lexeme] _ _).symm

/-- A reference gets the distance of its name and touches no scope.  Without a distance it is left
to the globals, and nothing is recorded. -/
theorem link_effect {kind : NodeKind} {name : Token} {hops : Option Nat} {s s' : State}
    (ran : (link kind name).run s = .ok hops s') :
    hops = distance? s.scopes name.lexeme ∧ Effect id s s' := by
  unfold link at ran
  rw [run_modifyGet_ok] at ran
  split at ran
  · next found =>
    cases ran
    exact ⟨found.symm, rfl, Nat.le_refl _⟩
  · next found =>
    cases ran
    exact ⟨found.symm, .refl _⟩

/-- So does a keyword, or it is reported.  In neither case a scope changes. -/
theorem linkUnless_effect {error? : Option ScopeError} {kind : NodeKind} {keyword : Token}
    {hops : Option Nat} {s s' : State}
    (ran : (linkUnless error? kind keyword).run s = .ok hops s') : Effect id s s' := by
  cases error? with
  | none => exact (link_effect ran).2
  | some error =>
    cases ran
    exact ⟨rfl, by simp⟩

/-- Without a report in the end nothing was wrong with a keyword, and it was looked up. -/
theorem linkUnless_silent {error? : Option ScopeError} {kind : NodeKind} {keyword : Token}
    {hops : Option Nat} {s s' : State}
    (ran : (linkUnless error? kind keyword).run s = .ok hops s') (none : s'.reports = #[]) :
    error? = .none ∧ hops = distance? s.scopes keyword.lexeme := by
  cases error? with
  | none => exact ⟨rfl, (link_effect ran).1⟩
  | some error =>
    cases ran
    simp at none

/-- The state with a new innermost scope that holds some names, ready for use. -/
def State.opened (s : State) (ready : List String) : State :=
  { s with scopes := ready.foldl (fun scope name => scope.put name true) Bindings.empty :: s.scopes }

/-- A walk inside a new scope, taken apart.  The scope is there when the walk begins, with the names
that are ready from the start, and is taken away behind it. -/
theorem within_run {α : Type} {ready : List String} {body : Resolve α} {a : α} {s s' : State} :
    (within ready body).run s = .ok a s' ↔
      ∃ s₁, body.run (s.opened ready) = .ok a s₁ ∧ s' = { s₁ with scopes := s₁.scopes.tail } := by
  unfold within
  simp only [run_bind_ok, run_modify_ok, run_pure_ok]
  constructor
  · rintro ⟨_, _, rfl, a', s₁, ran, _, _, rfl, rfl, rfl⟩
    exact ⟨s₁, ran, rfl⟩
  · rintro ⟨s₁, ran, rfl⟩
    exact ⟨⟨⟩, _, rfl, a, s₁, ran, ⟨⟩, _, rfl, rfl, rfl⟩

/-- What is introduced inside a scope is gone behind it.  So to the outside a walk in a scope of its
own has no effect but for its reports. -/
theorem within_effect {α : Type} (names : List String) {ready : List String} {body : Resolve α}
    {a : α} {s s' : State} (ran : (within ready body).run s = .ok a s')
    (inner : ∀ s₁, body.run (s.opened ready) = .ok a s₁ →
      Effect (introduce names) (s.opened ready) s₁) : Effect id s s' := by
  obtain ⟨s₁, inside, rfl⟩ := within_run.mp ran
  have effect := inner s₁ inside
  refine ⟨?_, effect.reports⟩
  simp [effect.scopes, State.opened]

/-! ### Expressions -/

mutual

/-- Resolving an expression touches no scope.  It may report and it may link, and neither changes
which names there are. -/
theorem expr_effect (context : Context) : ∀ (e : Expr) {e' : Expr} {s s' : State},
    (expr context e).run s = .ok e' s' → Effect id s s'
  | .literal value, _, s, _, ran => by
    cases ran
    exact .refl s
  | .grouping inner, _, s, s', ran => by
    simp only [expr, run_bind_ok, run_pure_ok] at ran
    obtain ⟨_, _, ran, -, rfl⟩ := ran
    exact expr_effect context inner ran
  | .var name hops, _, s, s', ran => by
    simp only [expr, run_bind_ok, run_pure_ok, run_get_ok] at ran
    obtain ⟨_, _, ⟨rfl, rfl⟩, _, _, reported, _, _, linked, -, rfl⟩ := ran
    exact (reportIf_effect reported).trans (link_effect linked).2
  | .assign name value hops, _, s, s', ran => by
    simp only [expr, run_bind_ok, run_pure_ok] at ran
    obtain ⟨_, _, ran, _, _, linked, -, rfl⟩ := ran
    exact (expr_effect context value ran).trans (link_effect linked).2
  | .unary operator right, _, s, s', ran => by
    simp only [expr, run_bind_ok, run_pure_ok] at ran
    obtain ⟨_, _, ran, -, rfl⟩ := ran
    exact expr_effect context right ran
  | .binary left operator right, _, s, s', ran
  | .logical left operator right, _, s, s', ran => by
    simp only [expr, run_bind_ok, run_pure_ok] at ran
    obtain ⟨_, _, ranLeft, _, _, ranRight, -, rfl⟩ := ran
    exact (expr_effect context left ranLeft).trans (expr_effect context right ranRight)
  | .call callee paren arguments, _, s, s', ran => by
    simp only [expr, run_bind_ok, run_pure_ok] at ran
    obtain ⟨_, _, ranCallee, _, _, ranArguments, -, rfl⟩ := ran
    exact (expr_effect context callee ranCallee).trans (exprs_effect context arguments ranArguments)
  | .getField object name, _, s, s', ran => by
    simp only [expr, run_bind_ok, run_pure_ok] at ran
    obtain ⟨_, _, ran, -, rfl⟩ := ran
    exact expr_effect context object ran
  | .setField object name value, _, s, s', ran => by
    simp only [expr, run_bind_ok, run_pure_ok] at ran
    obtain ⟨_, _, ranValue, _, _, ranObject, -, rfl⟩ := ran
    exact (expr_effect context value ranValue).trans (expr_effect context object ranObject)
  | .this keyword hops, _, s, s', ran
  | .super keyword method hops, _, s, s', ran => by
    simp only [expr, run_bind_ok, run_pure_ok] at ran
    obtain ⟨_, _, linked, -, rfl⟩ := ran
    exact linkUnless_effect linked
  | .misfit what, _, s, s', ran => absurd ran run_throw_ok

/-- Arguments introduce nothing, since no expression does. -/
theorem exprs_effect (context : Context) : ∀ (es : List Expr) {es' : List Expr} {s s' : State},
    (exprs context es).run s = .ok es' s' → Effect id s s'
  | [], _, s, s', ran => by
    cases ran
    exact .refl s
  | e :: rest, _, s, s', ran => by
    simp only [exprs, run_bind_ok, run_pure_ok] at ran
    obtain ⟨_, _, ranFirst, _, _, ranRest, -, rfl⟩ := ran
    exact (expr_effect context e ranFirst).trans (exprs_effect context rest ranRest)

end

/-- An expression that is left out does nothing. -/
theorem expr?_effect {context : Context} {e? e?' : Option Expr} {s s' : State}
    (ran : (expr? context e?).run s = .ok e?' s') : Effect id s s' := by
  cases e? with
  | none =>
    cases ran
    exact .refl s
  | some e =>
    obtain ⟨_, ran, -⟩ := run_map_ok.mp ran
    exact expr_effect context e ran

/-! ### Statements -/

/-- The names of several statements, in order. -/
def introducedBy (statements : List Stmt) : List String :=
  statements.flatMap Stmt.introduces

/-- A superclass is a reference, and touches no scope. -/
theorem superclass_effect {context : Context} {name : Token} {parent parent' : Superclass}
    {s s' : State} (ran : (superclass context name parent).run s = .ok parent' s') :
    Effect id s s' := by
  simp only [superclass, run_bind_ok, run_pure_ok] at ran
  obtain ⟨_, _, reported, _, _, ran, -, rfl⟩ := ran
  exact (reportIf_effect reported).trans (expr_effect _ _ ran)

mutual

/-- Resolving a statement introduces its names, and keeps which names these are.  The induction is
on the statement; scopes that are opened inside are closed again, with all their names. -/
theorem stmt_effect (context : Context) : ∀ (st : Stmt) {st' : Stmt} {s s' : State},
    (stmt context st).run s = .ok st' s' →
      st'.introduces = st.introduces ∧ Effect (introduce st.introduces) s s'
  | .expr e, _, s, s', ran
  | .print e, _, s, s', ran
  | .bare e, _, s, s', ran => by
    simp only [stmt, run_bind_ok, run_pure_ok] at ran
    obtain ⟨_, _, ran, rfl, rfl⟩ := ran
    exact ⟨rfl, (expr_effect context e ran).congr (introduce_nil _).symm⟩
  | .varDecl name initializer, _, s, s', ran => by
    simp only [stmt, run_bind_ok, run_pure_ok] at ran
    obtain ⟨_, _, declared, _, _, ran, _, _, defined, rfl, rfl⟩ := ran
    refine ⟨rfl, (((declare_effect declared).trans (expr?_effect ran)).trans
      (define_effect defined)).congr ?_⟩
    exact (introduce_singleton _ _).symm
  | .block statements, _, s, s', ran => by
    simp only [stmt, run_bind_ok, run_pure_ok] at ran
    obtain ⟨_, _, ran, rfl, rfl⟩ := ran
    have effect := within_effect _ ran fun _ inside => (stmts_effect context statements inside).2
    exact ⟨rfl, effect.congr (introduce_nil _).symm⟩
  | .ifElse condition thenBranch none, _, s, s', ran => by
    simp only [stmt, run_bind_ok, run_pure_ok] at ran
    obtain ⟨_, _, ranCondition, _, _, ranThen, rfl, rfl⟩ := ran
    obtain ⟨same, effect⟩ := stmt_effect context thenBranch ranThen
    exact ⟨same, (expr_effect context condition ranCondition).trans effect⟩
  | .ifElse condition thenBranch (some elseBranch), _, s, s', ran => by
    simp only [stmt, run_bind_ok, run_pure_ok] at ran
    obtain ⟨_, _, ranCondition, _, _, ranThen, _, _, ranElse, rfl, rfl⟩ := ran
    obtain ⟨sameThen, effectThen⟩ := stmt_effect context thenBranch ranThen
    obtain ⟨sameElse, effectElse⟩ := stmt_effect context elseBranch ranElse
    refine ⟨by simp only [Stmt.introduces, sameThen, sameElse], ?_⟩
    refine (((expr_effect context condition ranCondition).trans effectThen).trans effectElse).congr ?_
    exact (introduce_append _ _ _).symm
  | .loop condition body, _, s, s', ran => by
    simp only [stmt, run_bind_ok, run_pure_ok] at ran
    obtain ⟨_, _, ranCondition, _, _, ranBody, rfl, rfl⟩ := ran
    obtain ⟨same, effect⟩ := stmt_effect _ body ranBody
    exact ⟨same, (expr_effect context condition ranCondition).trans effect⟩
  | .funDecl decl, _, s, s', ran => by
    simp only [stmt, run_bind_ok, run_pure_ok] at ran
    obtain ⟨_, s₁, declared, _, s₂, defined, _, _, ran, rfl, rfl⟩ := ran
    have both := declare_define_effect (run_bind_ok.mpr ⟨_, s₁, declared, defined⟩)
    obtain ⟨same, effect⟩ := function_effect context .function decl ran
    exact ⟨by simp only [Stmt.introduces, same], both.trans effect⟩
  | .classDecl name none members, _, s, s', ran => by
    simp only [stmt, run_bind_ok, run_pure_ok] at ran
    obtain ⟨_, s₁, declared, _, s₂, defined, _, _, ran, rfl, rfl⟩ := ran
    have both := declare_define_effect (run_bind_ok.mpr ⟨_, s₁, declared, defined⟩)
    have effect := within_effect [] ran fun _ inside =>
      (methods_effect _ members inside).congr (introduce_nil _).symm
    exact ⟨rfl, both.trans effect⟩
  | .classDecl name (some parent) members, _, s, s', ran => by
    simp only [stmt, run_bind_ok, run_pure_ok] at ran
    obtain ⟨_, s₁, declared, _, s₂, defined, _, _, ranParent, _, _, ran, rfl, rfl⟩ := ran
    have both := declare_define_effect (run_bind_ok.mpr ⟨_, s₁, declared, defined⟩)
    -- the scopes of `super` and `this` are both gone behind the methods
    have effect := within_effect [] ran fun _ outside =>
      (within_effect [] outside fun _ inside =>
        (methods_effect _ members inside).congr (introduce_nil _).symm).congr
          (introduce_nil _).symm
    exact ⟨rfl, (both.trans (superclass_effect ranParent)).trans effect⟩
  | .ret keyword value, _, s, s', ran => by
    simp only [stmt, run_bind_ok, run_pure_ok] at ran
    obtain ⟨_, _, atTop, _, _, fromInit, _, _, ran, rfl, rfl⟩ := ran
    refine ⟨rfl, (((reportIf_effect atTop).trans (reportIf_effect fromInit)).trans
      (expr?_effect ran)).congr ?_⟩
    exact (introduce_nil _).symm
  | .brk keyword, _, s, s', ran
  | .cont keyword, _, s, s', ran => by
    simp only [stmt, run_bind_ok, run_pure_ok] at ran
    obtain ⟨_, _, reported, rfl, rfl⟩ := ran
    exact ⟨rfl, (reportIf_effect reported).congr (introduce_nil _).symm⟩
  | .misfit what, _, s, s', ran => absurd ran run_throw_ok
termination_by structural st => st

/-- Resolving statements in order introduces their names in order.  Resolution keeps the names that
a statement introduces, so they can be read off the outcome as well. -/
theorem stmts_effect (context : Context) : ∀ (sts : List Stmt) {sts' : List Stmt} {s s' : State},
    (stmts context sts).run s = .ok sts' s' →
      introducedBy sts' = introducedBy sts ∧ Effect (introduce (introducedBy sts)) s s'
  | [], _, s, s', ran => by
    cases ran
    exact ⟨rfl, (Effect.refl s).congr (introduce_nil _).symm⟩
  | st :: rest, _, s, s', ran => by
    simp only [stmts, run_bind_ok, run_pure_ok] at ran
    obtain ⟨_, _, ranFirst, _, _, ranRest, rfl, rfl⟩ := ran
    obtain ⟨sameFirst, effectFirst⟩ := stmt_effect context st ranFirst
    obtain ⟨sameRest, effectRest⟩ := stmts_effect context rest ranRest
    refine ⟨?_, (effectFirst.trans effectRest).congr (introduce_append _ _ _).symm⟩
    rw [introducedBy, List.flatMap_cons, sameFirst]
    exact congrArg (st.introduces ++ ·) sameRest
termination_by structural sts => sts

/-- Resolving a function leaves the scopes around it as they were.  Its parameters and variables are
introduced into a scope of its own, which is gone behind it. -/
theorem function_effect (context : Context) (kind : FunctionKind) :
    ∀ (decl : FunDecl) {decl' : FunDecl} {s s' : State},
      (function context kind decl).run s = .ok decl' s' →
        decl'.name = decl.name ∧ Effect id s s'
  | ⟨name, params, body⟩, _, s, s', ran => by
    simp only [function, run_bind_ok, run_pure_ok] at ran
    obtain ⟨_, _, ran, rfl, rfl⟩ := ran
    refine ⟨rfl, within_effect (params.map Token.lexeme ++ introducedBy body) ran
      fun s₁ inside => ?_⟩
    rw [run_bind_ok] at inside
    obtain ⟨_, _, declared, ranBody⟩ := inside
    exact ((declareAll_effect declared).trans (stmts_effect _ body ranBody).2).congr
      (introduce_append _ _ _).symm
termination_by structural decl => decl

/-- The methods of a class touch none of the scopes around them, as each has one of its own. -/
theorem methods_effect (context : Context) :
    ∀ (decls : List FunDecl) {decls' : List FunDecl} {s s' : State},
      (methods context decls).run s = .ok decls' s' → Effect id s s'
  | [], _, s, s', ran => by
    cases ran
    exact .refl s
  | decl :: rest, _, s, s', ran => by
    simp only [methods, run_bind_ok, run_pure_ok] at ran
    obtain ⟨_, _, ranFirst, _, _, ranRest, -, rfl⟩ := ran
    exact (function_effect context _ decl ranFirst).2.trans (methods_effect context rest ranRest)
termination_by structural decls => decls

end

end Scope
end Arbor
