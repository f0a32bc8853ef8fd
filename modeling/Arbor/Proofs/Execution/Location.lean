import Arbor.Proofs.Execution.Sane

/-!
# Where nodes run

A node that runs is located: the frame it runs in stands for the scopes of the visit at which the
node was resolved, and holds nothing more than the names that are ready there.  The parts of
a located node are located too: in the same frame, in a frame that is made for a block or a body, or
behind the statements that ran before.

## Main definitions

* `Located`: a visit seen from a frame that stands for its scopes.
* `ExprAt`, `StmtAt`, `StmtsAt`: resolved nodes where they are located.

## Main statements

* `ExprAt.left`, `StmtAt.thenBranch` and the others: the parts of located nodes.
* `StmtAt.block`, `ClosureFits.body`: blocks and bodies in the frames made for them.
* `StmtsAt.element`: a statement behind those that ran before it.
-/

namespace Arbor
namespace Execution

open Eval Stateful Scope

/-- A visit, seen from a frame that stands for its scopes and holds nothing more. -/
structure Located (h : History) (frames : Frames Value) (f : FrameId) (v : Visit) : Prop where
  seen : h.seen v
  stands : Stands h.made frames f v.sites v.state.scopes
  tight : Exact frames f v.state.scopes

/-- A resolved expression in a frame where it is located.  The name of a superclass is resolved when
the name of the class is already known, and evaluated when it is not yet bound; it is another name. -/
inductive ExprAt (h : History) (frames : Frames Value) (f : FrameId) : Expr → Prop
  | intro {sites : List Site} {s s' : State} {context : Context} {source e : Expr}
      (located : Located h frames f ⟨sites, s, .expr context source⟩)
      (yields : Yields (expr context source) s e s') : ExprAt h frames f e
  | parent {sites : List Site} {s s' : State} {context : Context} {name : Token}
      {hops hops' : Option Nat} {scopes : List (Bindings Bool)} {other : String}
      {inClass : Option ClassKind}
      (seen : h.seen ⟨sites, s, .expr context (.var name hops)⟩)
      (yields : Yields (expr context (.var name hops)) s (.var name hops') s')
      (known : s.scopes = introduce [other] scopes) (differ : name.lexeme ≠ other)
      (orderly : Orderly inClass scopes) (stands : Stands h.made frames f sites scopes) :
      ExprAt h frames f (.var name hops')

/-- A resolved statement in a frame where it is located. -/
inductive StmtAt (h : History) (frames : Frames Value) (f : FrameId) (st : Stmt) : Prop
  | intro {sites : List Site} {s s' : State} {context : Context} {source : Stmt}
      (located : Located h frames f ⟨sites, s, .stmt context source⟩)
      (yields : Yields (stmt context source) s st s')

/-- Resolved statements in a frame where they are located. -/
inductive StmtsAt (h : History) (frames : Frames Value) (f : FrameId) (sts : List Stmt) : Prop
  | intro {sites : List Site} {s s' : State} {context : Context} {sources : List Stmt}
      (located : Located h frames f ⟨sites, s, .stmts context sources⟩)
      (yields : Yields (stmts context sources) s sts s')

variable {h : History} {frames new : Frames Value} {f : FrameId}

namespace Located

variable {sites : List Site} {s s₁ : State} {task task' : Scope.Task} {v : Visit}

/-- A location lasts while no name is added to the frame. -/
theorem calm (located : Located h frames f v) (there : 0 < frames.size)
    (changes : frames.Changes f [] new) : Located h new f v := by
  refine ⟨located.seen, located.stands.mono changes, ?_⟩
  exact located.tight.calm (located.stands.lt_size there) changes

/-- A part that is resolved in the same scopes is located in the same frame, as only a new scope
comes with a new frame. -/
theorem part (located : Located h frames f ⟨sites, s, task⟩)
    (leads : Leads ⟨sites, s, task⟩ ⟨sites, s₁, task'⟩) (same : s₁.scopes = s.scopes) :
    Located h frames f ⟨sites, s₁, task'⟩ := by
  obtain ⟨seen, stands, tight⟩ := located
  refine ⟨h.leads seen leads, ?_, ?_⟩
  · change Stands h.made frames f sites s₁.scopes
    rw [same]
    exact stands
  · change Exact frames f s₁.scopes
    rw [same]
    exact tight

end Located

/-- An expression stays located while frames change without a name being added to its own. -/
theorem ExprAt.calm {e : Expr} (located : ExprAt h frames f e) (there : 0 < frames.size)
    (changes : frames.Changes f [] new) : ExprAt h new f e := by
  cases located with
  | intro located yields => exact .intro (located.calm there changes) yields
  | parent seen yields known differ orderly stands =>
    exact .parent seen yields known differ orderly (stands.mono changes)

/-- So does a statement. -/
theorem StmtAt.calm {st : Stmt} (located : StmtAt h frames f st) (there : 0 < frames.size)
    (changes : frames.Changes f [] new) : StmtAt h new f st := by
  obtain ⟨located, yields⟩ := located
  exact ⟨located.calm there changes, yields⟩

/-! ### Parts of expressions -/

namespace ExprAt

/-- What stands in parentheses runs in the same frame. -/
theorem grouping {e : Expr} (located : ExprAt h frames f (.grouping e)) : ExprAt h frames f e := by
  obtain ⟨located, yields⟩ := located
  cases yields.exprCase with
  | grouping part => exact .intro (located.part .grouping rfl) part

/-- The value that is assigned is resolved before the name is, with the same scopes at hand. -/
theorem assigned {name : Token} {e : Expr} {hops : Option Nat}
    (located : ExprAt h frames f (.assign name e hops)) : ExprAt h frames f e := by
  obtain ⟨located, yields⟩ := located
  cases yields.exprCase with
  | assign part => exact .intro (located.part .assigned rfl) part

/-- An operand is located where its operator is. -/
theorem operand {operator : Token} {e : Expr} (located : ExprAt h frames f (.unary operator e)) :
    ExprAt h frames f e := by
  obtain ⟨located, yields⟩ := located
  cases yields.exprCase with
  | unary part => exact .intro (located.part .operand rfl) part

theorem left {operator : Token} {e e' : Expr}
    (located : ExprAt h frames f (.binary e operator e')) : ExprAt h frames f e := by
  obtain ⟨located, yields⟩ := located
  cases yields.exprCase with
  | binary first second => exact .intro (located.part .left rfl) first

/-- The right operand is resolved behind the left one, which has left the scopes as they were. -/
theorem right {operator : Token} {e e' : Expr}
    (located : ExprAt h frames f (.binary e operator e')) : ExprAt h frames f e' := by
  obtain ⟨located, yields⟩ := located
  cases yields.exprCase with
  | binary first second =>
    exact .intro (located.part (.right first.run) (expr_effect _ _ first.run).scopes) second

theorem logicalLeft {operator : Token} {e e' : Expr}
    (located : ExprAt h frames f (.logical e operator e')) : ExprAt h frames f e := by
  obtain ⟨located, yields⟩ := located
  cases yields.exprCase with
  | logical first second => exact .intro (located.part .logicalLeft rfl) first

theorem logicalRight {operator : Token} {e e' : Expr}
    (located : ExprAt h frames f (.logical e operator e')) : ExprAt h frames f e' := by
  obtain ⟨located, yields⟩ := located
  cases yields.exprCase with
  | logical first second =>
    exact .intro (located.part (.logicalRight first.run) (expr_effect _ _ first.run).scopes) second

theorem callee {e : Expr} {paren : Token} {arguments : List Expr}
    (located : ExprAt h frames f (.call e paren arguments)) : ExprAt h frames f e := by
  obtain ⟨located, yields⟩ := located
  cases yields.exprCase with
  | call first second => exact .intro (located.part .callee rfl) first

/-- So is each argument behind those before it; the list is split where the argument stands. -/
theorem argument {callee e : Expr} {paren : Token} {before after : List Expr}
    (located : ExprAt h frames f (.call callee paren (before ++ e :: after))) :
    ExprAt h frames f e := by
  obtain ⟨located, yields⟩ := located
  cases yields.exprCase with
  | call first second =>
    obtain ⟨_, _, _, _, _, rfl, earlier, here⟩ := exprs_yields_append second
    have same := ((expr_effect _ _ first.run).trans (exprs_effect _ _ earlier.run)).scopes
    exact .intro (located.part (.argument first.run earlier.run) same) here

/-- The object of a property is located where the access is. -/
theorem object {name : Token} {e : Expr} (located : ExprAt h frames f (.getField e name)) :
    ExprAt h frames f e := by
  obtain ⟨located, yields⟩ := located
  cases yields.exprCase with
  | getField part => exact .intro (located.part .object rfl) part

theorem fieldObject {name : Token} {e e' : Expr}
    (located : ExprAt h frames f (.setField e name e')) : ExprAt h frames f e := by
  obtain ⟨located, yields⟩ := located
  cases yields.exprCase with
  | setField first second =>
    exact .intro (located.part (.fieldObject first.run) (expr_effect _ _ first.run).scopes) second

/-- The value of a field is resolved first and evaluated last, which the scopes do not tell
apart. -/
theorem fieldValue {name : Token} {e e' : Expr}
    (located : ExprAt h frames f (.setField e name e')) : ExprAt h frames f e' := by
  obtain ⟨located, yields⟩ := located
  cases yields.exprCase with
  | setField first second => exact .intro (located.part .fieldValue rfl) first

end ExprAt

/-! ### Parts of statements -/

namespace StmtAt

/-- The expression of a statement is located where the statement is. -/
theorem expression {e : Expr} (located : StmtAt h frames f (.expr e)) : ExprAt h frames f e := by
  obtain ⟨located, yields⟩ := located
  cases yields.stmtCase with
  | expr part => exact .intro (located.part .expression rfl) part

theorem printed {e : Expr} (located : StmtAt h frames f (.print e)) : ExprAt h frames f e := by
  obtain ⟨located, yields⟩ := located
  cases yields.stmtCase with
  | print part => exact .intro (located.part .printed rfl) part

/-- While its initializer is evaluated a variable is known but neither ready nor held.  So the scope
has a name that the frame does not have yet. -/
theorem initial {name : Token} {e : Expr} (located : StmtAt h frames f (.varDecl name (some e))) :
    ExprAt h frames f e := by
  obtain ⟨located, yields⟩ := located
  cases yields.stmtCase with
  | varDecl declared part =>
    obtain ⟨source, rfl, value⟩ := expr?_yields_some part
    have scopes := (declare_effect declared.run).scopes
    refine .intro ⟨h.leads located.seen (.initializer declared.run), ?_, ?_⟩ value
    · rw [scopes]
      exact located.stands.mark _
    · rw [scopes]
      exact located.tight.mark fun scope outer same => declare_silent declared.run declared.silent same

/-- The condition of a conditional is located where the conditional is. -/
theorem branchCondition {condition : Expr} {thenBranch : Stmt} {elseBranch : Option Stmt}
    (located : StmtAt h frames f (.ifElse condition thenBranch elseBranch)) :
    ExprAt h frames f condition := by
  obtain ⟨located, yields⟩ := located
  cases yields.stmtCase with
  | ifThen first second => exact .intro (located.part .condition rfl) first
  | ifElse first second third => exact .intro (located.part .condition rfl) first

/-- A branch that is not a block runs in the frame of the conditional. -/
theorem thenBranch {condition : Expr} {thenBranch : Stmt} {elseBranch : Option Stmt}
    (located : StmtAt h frames f (.ifElse condition thenBranch elseBranch)) :
    StmtAt h frames f thenBranch := by
  obtain ⟨located, yields⟩ := located
  cases yields.stmtCase with
  | ifThen first second =>
    exact ⟨located.part (.thenBranch first.run) (expr_effect _ _ first.run).scopes, second⟩
  | ifElse first second third =>
    exact ⟨located.part (.thenBranch first.run) (expr_effect _ _ first.run).scopes, second⟩

/-- A branch is no declaration, so the scopes are the same behind it.  Without this the other branch
would be resolved in other scopes than it is run in. -/
theorem elseBranch {condition : Expr} {thenBranch elseBranch : Stmt}
    (located : StmtAt h frames f (.ifElse condition thenBranch (some elseBranch))) :
    StmtAt h frames f elseBranch := by
  obtain ⟨located, yields⟩ := located
  cases yields.stmtCase with
  | ifElse first second third =>
    obtain ⟨⟨-, plain, formed, -⟩, -⟩ := h.regular located.seen
    have effect := (expr_effect _ _ first.run).trans (stmt_effect _ _ second.run).2
    have same := effect.scopes
    rw [Stmt.introduces_eq_nil formed plain, Function.comp_apply, introduce_nil] at same
    exact ⟨located.part (.elseBranch first.run second.run) same, third⟩

theorem loopCondition {condition : Expr} {body : Stmt}
    (located : StmtAt h frames f (.loop condition body)) : ExprAt h frames f condition := by
  obtain ⟨located, yields⟩ := located
  cases yields.stmtCase with
  | loop first second => exact .intro (located.part .loopCondition rfl) first

/-- So does the body of a loop, in every turn. -/
theorem loopBody {condition : Expr} {body : Stmt}
    (located : StmtAt h frames f (.loop condition body)) : StmtAt h frames f body := by
  obtain ⟨located, yields⟩ := located
  cases yields.stmtCase with
  | loop first second =>
    exact ⟨located.part (.loopBody first.run) (expr_effect _ _ first.run).scopes, second⟩

/-- The body of a loop is no declaration. -/
theorem introduces_body {condition : Expr} {body : Stmt}
    (located : StmtAt h frames f (.loop condition body)) : body.introduces = [] := by
  obtain ⟨located, yields⟩ := located
  cases yields.stmtCase with
  | loop first second =>
    obtain ⟨⟨-, plain, formed⟩, -⟩ := h.regular located.seen
    rw [(stmt_effect _ _ second.run).1]
    exact Stmt.introduces_eq_nil formed plain

/-- What is returned is evaluated in the frame of the return.  The resolver made neither of the two
reports that it has for a return, so the value is resolved in the state of the statement. -/
theorem returned {keyword : Token} {e : Expr}
    (located : StmtAt h frames f (.ret keyword (some e))) : ExprAt h frames f e := by
  obtain @⟨sites, s, s', context, st, located, yields⟩ := located
  cases yields.stmtCase with
  | ret inside plain part =>
    obtain ⟨source, rfl, value⟩ := expr?_yields_some part
    rw [Option.isSome_some, Bool.true_and] at plain
    -- neither report was made, so both checks left the state alone
    have atTop : (reportIf context.function.isNone keyword .returnAtTop).run s = .ok () s := by
      rw [inside]
      rfl
    have fromInit : (reportIf (context.function == some .initializer) keyword
        .returnFromInitializer).run s = .ok () s := by
      rw [plain]
      rfl
    exact .intro (located.part (.returned atTop fromInit) rfl) value

end StmtAt

/-! ### New frames -/

/-- A frame that was just made holds nothing. -/
theorem not_held_make {enclosing : Option FrameId} {name : String} :
    ¬ ((frames.make enclosing).local? frames.size name).isSome = true := by
  rw [Frames.local?_make]
  intro holds
  exact Nat.lt_irrefl _ (Frames.lt_size_of_local? holds)

/-- The statements of a block, in the frame made for it.  Scope and frame are both new and empty,
and around them is what is around the block. -/
theorem StmtAt.block {statements : List Stmt} (located : StmtAt h frames f (.block statements))
    (origin : h.made (.block statements) frames.size) :
    StmtsAt h (frames.make (some f)) frames.size statements := by
  obtain ⟨located, yields⟩ := located
  cases yields.stmtCase with
  | block part =>
    refine ⟨⟨h.leads located.seen (.block part.run), ?_, ?_⟩, part⟩
    -- a new scope and a new frame are both empty
    · refine .inner (Frames.enclosing?_make_self _ _) origin (fun name ready => ?_)
        (located.stands.mono (.make _ : frames.Changes f [] _))
      simp at ready
    · intro name holds
      exact absurd holds not_held_make

/-- The body of a function, in the frame made for it, which holds the parameters.  The resolver
opened a scope with the parameters for it, and the frame is made inside the one in which the
function was made; so the frames outward are again those of the scopes. -/
theorem ClosureFits.body {c : Closure} (fits : ClosureFits h frames c)
    (origin : h.made (.body c.decl) frames.size)
    (changes : (frames.make (some c.frame)).Changes frames.size (c.decl.params.map Token.lexeme) new)
    (held : ∀ name ∈ c.decl.params.map Token.lexeme, (new.local? frames.size name).isSome = true) :
    StmtsAt h new frames.size c.decl.body := by
  obtain ⟨⟨sites, s, context, kind, ⟨name, params, body⟩, s', seen, yields, stands⟩, -⟩ := fits
  obtain ⟨s₁, body', s₂, same, declared, part⟩ := function_yields yields
  -- resolution changes the body of a function but not its parameters
  rw [same] at origin changes held ⊢
  have scopes := (declareAll_effect declared.run).scopes
  refine ⟨⟨h.leads seen (.body declared.run part.run), ?_, ?_⟩, part⟩
  · change Stands h.made new frames.size _ s₁.scopes
    rw [scopes]
    refine .inner ?_ origin (fun name ready => ?_)
      ((stands.mono (.make _ : frames.Changes frames.size [] _)).mono changes)
    · rw [changes.links _ (by simp), Frames.enclosing?_make_self]
    · rw [get?_foldl_introduced] at ready
      split at ready
      · next mem => exact held name mem
      · simp at ready
  · change Exact new frames.size s₁.scopes
    rw [scopes]
    have empty : Exact (frames.make (some c.frame)) frames.size (s.opened []).scopes :=
      fun name holds => absurd holds not_held_make
    exact empty.introduce (by simp) changes

/-! ### Behind statements -/

/-- A statement of a list, in a frame that has got the names of the statements before it.  The scope
got the same names from them when they were resolved. -/
theorem StmtsAt.element {before after : List Stmt} {st : Stmt}
    (located : StmtsAt h frames f (before ++ st :: after)) (there : 0 < frames.size)
    (changes : frames.Changes f (introducedBy before) new)
    (held : ∀ name ∈ introducedBy before, (new.local? f name).isSome = true) :
    StmtAt h new f st := by
  obtain ⟨located, yields⟩ := located
  obtain ⟨_, _, _, s₁, _, rfl, earlier, here⟩ := stmts_yields_append yields
  -- resolved statements introduce the same names as those they were resolved from
  obtain ⟨same, effect⟩ := stmts_effect _ _ earlier.run
  rw [same] at changes held
  refine ⟨⟨h.leads located.seen (.element earlier.run), ?_, ?_⟩, here⟩
  · change Stands h.made new f _ s₁.scopes
    rw [effect.scopes]
    exact (located.stands.mono changes).introduce held
  · change Exact new f s₁.scopes
    rw [effect.scopes]
    exact located.tight.introduce (located.stands.lt_size there) changes

/-- A statement of a list, where the list is: some names may be missing yet.  It is a declaration,
or else introduces nothing, as branches and bodies are no declarations. -/
theorem StmtsAt.declares {before after : List Stmt} {st : Stmt}
    (located : StmtsAt h frames f (before ++ st :: after)) :
    st.isDeclaration = true ∨ st.introduces = [] := by
  obtain ⟨located, yields⟩ := located
  obtain ⟨_, source, _, s₁, _, rfl, earlier, here⟩ := stmts_yields_append yields
  obtain ⟨formed, -⟩ := h.regular (h.leads located.seen (.element earlier.run))
  cases declaration : source.isDeclaration with
  | false =>
    rw [(stmt_effect _ _ here.run).1]
    exact .inr (Stmt.introduces_eq_nil formed declaration)
  | true =>
    left
    cases here.stmtCase <;> first | rfl | cases declaration

/-! ### Functions and classes -/

/-- A function, once its name is bound, fits.  Its body is resolved in the scopes behind the
declaration, in which the name is ready, so that the function may call itself. -/
theorem StmtAt.function {decl : FunDecl} {id : Nat} (located : StmtAt h frames f (.funDecl decl))
    (changes : frames.Changes f [decl.name.lexeme] new)
    (held : (new.local? f decl.name.lexeme).isSome = true) :
    ClosureFits h new ⟨id, decl, f, false⟩ := by
  obtain ⟨located, yields⟩ := located
  cases yields.stmtCase with
  | @funDecl source _ s₁ s' named part =>
    have scopes := (declare_define_effect named.run).scopes
    have same := (function_effect _ _ _ part.run).1
    rw [same] at changes held
    refine ⟨⟨_, _, _, _, _, _, h.leads located.seen (.function named.run), part, ?_⟩,
      fun init => by cases init⟩
    rw [scopes]
    exact (located.stands.mono changes).introduce_one held

/-- The name of a function is no keyword. -/
theorem StmtAt.plain_function {decl : FunDecl} (located : StmtAt h frames f (.funDecl decl)) :
    Plain decl.name.lexeme := by
  obtain ⟨located, yields⟩ := located
  obtain ⟨formed, -⟩ := h.regular located.seen
  cases yields.stmtCase with
  | funDecl named part =>
    rw [(function_effect _ _ _ part.run).1]
    exact plain_of_spelled formed.name.1 formed.name.2

theorem StmtAt.plain_varDecl {name : Token} {initializer : Option Expr}
    (located : StmtAt h frames f (.varDecl name initializer)) : Plain name.lexeme := by
  obtain ⟨located, yields⟩ := located
  obtain ⟨formed, -⟩ := h.regular located.seen
  cases yields.stmtCase with
  | varDecl declared part => exact plain_of_spelled formed.1 formed.2.1

/-- A located expression is well-formed, so its operator is one that there is a rule for. -/
theorem ExprAt.known_unary {operator : Token} {e : Expr}
    (located : ExprAt h frames f (.unary operator e)) :
    operator.kind = .bang ∨ operator.kind = .minus := by
  obtain ⟨located, yields⟩ := located
  obtain ⟨formed, -⟩ := h.regular located.seen
  cases yields.exprCase with
  | unary part => exact formed.1

/-- The same for operators with two operands. -/
theorem ExprAt.known_binary {operator : Token} {e e' : Expr}
    (located : ExprAt h frames f (.binary e operator e')) : operator.kind.isBinary = true := by
  obtain ⟨located, yields⟩ := located
  obtain ⟨formed, -⟩ := h.regular located.seen
  cases yields.exprCase with
  | binary first second => exact formed.1

/-- No expression stands in place of a statement. -/
theorem StmtAt.not_bare {e : Expr} (located : StmtAt h frames f (.bare e)) : False := by
  obtain ⟨located, yields⟩ := located
  obtain ⟨formed, -⟩ := h.regular located.seen
  cases yields.stmtCase with
  | bare part => exact formed

/-- What is assigned to is no keyword. -/
theorem ExprAt.plain_assign {name : Token} {value : Expr} {hops : Option Nat}
    (located : ExprAt h frames f (.assign name value hops)) : Plain name.lexeme := by
  obtain ⟨located, yields⟩ := located
  obtain ⟨formed, -⟩ := h.regular located.seen
  cases yields.exprCase with
  | assign part => exact plain_of_spelled formed.1 formed.2.1

/-- The parameters of a function are no keywords. -/
theorem ClosureFits.plain_params {c : Closure} (fits : ClosureFits h frames c) :
    ∀ param ∈ c.decl.params, Plain param.lexeme := by
  obtain ⟨⟨sites, s, context, kind, ⟨name, params, body⟩, s', seen, yields, -⟩, -⟩ := fits
  obtain ⟨_, body', _, same, -, -⟩ := function_yields yields
  obtain ⟨⟨-, -, formed, -⟩, -⟩ := h.regular seen
  intro param mem
  rw [same] at mem
  exact plain_of_spelled (formed param mem).1 (formed param mem).2

theorem StmtAt.plain_class {name : Token} {parent : Option Superclass} {members : List FunDecl}
    (located : StmtAt h frames f (.classDecl name parent members)) : Plain name.lexeme := by
  obtain ⟨located, yields⟩ := located
  obtain ⟨formed, -⟩ := h.regular located.seen
  cases yields.stmtCase with
  | plainClass named part => exact plain_of_spelled formed.1 formed.2.1
  | derivedClass named other first second => exact plain_of_spelled formed.1 formed.2.1

/-- The methods of a class without a superclass, once the name of the class is bound.  They are
resolved in turn, each in the scopes that the declaration has left, as no method introduces a
name. -/
theorem StmtAt.methods {name : Token} {members : List FunDecl}
    (located : StmtAt h frames f (.classDecl name none members))
    (changes : frames.Changes f [name.lexeme] new)
    (held : (new.local? f name.lexeme).isSome = true) :
    ∃ sites scopes, Stands h.made new f sites scopes ∧ Resolved h sites scopes members := by
  obtain ⟨located, yields⟩ := located
  cases yields.stmtCase with
  | plainClass named part =>
    refine ⟨_, _, (located.stands.mono changes).introduce_one held, fun decl mem => ?_⟩
    obtain ⟨before, after, rfl⟩ := List.append_of_mem mem
    obtain ⟨_, _, _, _, _, rfl, earlier, here⟩ := methods_yields_append part
    refine ⟨_, _, _, _, _, h.leads located.seen (.method named.run earlier.run here.run), here, ?_⟩
    rw [(methods_effect _ _ earlier.run).scopes, ← (declare_define_effect named.run).scopes]
    rfl

/-- The methods of a class with a superclass, once the name of the class is bound.  Between the
scope of the class declaration and those of the methods is one that holds `super`. -/
theorem StmtAt.inheritingMethods {name : Token} {parent : Superclass} {members : List FunDecl}
    (located : StmtAt h frames f (.classDecl name (some parent) members))
    (changes : frames.Changes f [name.lexeme] new)
    (held : (new.local? f name.lexeme).isSome = true) :
    ∃ sites scopes, Stands h.made new f sites scopes ∧
      Resolved h (.parent name members :: sites) (superScope :: scopes) members := by
  obtain @⟨sites, s, _, context, source, located, yields⟩ := located
  cases yields.stmtCase with
  | @derivedClass _ parent value' sources _ s₁ s₂ s' named other first second =>
    have ranParent : (Scope.superclass context name parent).run s₁ =
        .ok { parent with value := value' } s₂ := by
      simp only [Scope.superclass, run_bind_ok, run_pure_ok]
      refine ⟨(), s₁, ?_, value', s₂, first.run, rfl, rfl⟩
      rw [other]
      rfl
    refine ⟨_, _, (located.stands.mono changes).introduce_one held, fun decl mem => ?_⟩
    obtain ⟨before, after, rfl⟩ := List.append_of_mem mem
    obtain ⟨_, _, _, _, _, split, earlier, here⟩ := methods_yields_append second
    refine ⟨_, _, _, _, _, h.leads located.seen (.inheritingMethod split named.run ranParent
      second.run earlier.run here.run), here, ?_⟩
    have scopes : s₂.scopes = introduce [name.lexeme] s.scopes :=
      ((declare_define_effect named.run).trans (expr_effect _ _ first.run)).scopes
    rw [(methods_effect _ _ earlier.run).scopes, ← scopes]
    rfl

/-- The superclass of a class is a name, evaluated before the name of the class is bound.  The
resolver has declared the class by then, which makes no difference: a class cannot inherit from
itself, so the two names differ. -/
theorem StmtAt.superclass {name : Token} {parent : Superclass} {members : List FunDecl}
    (located : StmtAt h frames f (.classDecl name (some parent) members)) :
    ExprAt h frames f parent.value := by
  obtain ⟨located, yields⟩ := located
  obtain ⟨formed, orderly, -⟩ := h.regular located.seen
  cases yields.stmtCase with
  | @derivedClass _ parent value' sources _ s₁ s₂ s' named other first second =>
    obtain ⟨-, -, ⟨-, -, hops, var⟩, -⟩ := formed
    have reported : (reportIf (parent.name.lexeme == name.lexeme) parent.name
        .inheritsFromItself).run s₁ = .ok () s₁ := by
      rw [other]
      rfl
    have seen := h.leads located.seen (.superclass named.run reported)
    -- at run time the name of the class is not bound yet, but the superclass has another name
    change ExprAt h frames f value'
    rw [var] at first seen
    cases first.exprCase with
    | var ready =>
      refine .parent seen first (declare_define_effect named.run).scopes ?_ orderly located.stands
      simpa using other

end Execution
end Arbor
