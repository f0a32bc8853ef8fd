import Arbor.Proofs.Scope.Yields

/-!
# The places resolution comes to

Resolution is one walk over a program.  A *visit* is a moment of it: what it has come to, the state
it comes with, and the constructs that opened the scopes it carries, innermost first.  `Leads` is
one step of the walk, from a node to one of its parts; `Visits` are all moments of the walk over
a program.  Each rule of `Leads` is one recursive call of the resolver, and its premises say what
the resolver has done in between.

A scope is identified by what opens it, its *site*, together with the scopes around it.  Sites hold
resolved trees, since these are what runs.

## Main definitions

* `Site`, `Visit`, `Leads`, `Visits`.
-/

namespace Arbor
namespace Scope

/-- What opens a lexical scope. -/
inductive Site where
  /-- A block. -/
  | block (statements : List Stmt)
  /-- The body of a function, which holds the parameters too. -/
  | body (function : FunDecl)
  /-- What stands around a method and holds `this`. -/
  | receiver (method : FunDecl)
  /-- What stands around the methods of a class with a superclass and holds `super`. -/
  | parent (name : Token) (methods : List FunDecl)

/-- What the resolver can be busy with. -/
inductive Task where
  | expr (context : Context) (expression : Expr)
  | stmt (context : Context) (statement : Stmt)
  | stmts (context : Context) (statements : List Stmt)
  | function (context : Context) (kind : FunctionKind) (decl : FunDecl)

/-- A moment of resolution. -/
structure Visit where
  /-- The sites of the open scopes, the innermost first. -/
  sites : List Site
  state : State
  task : Task

/-- Resolution comes from a node to a part of it. -/
inductive Leads : Visit → Visit → Prop
  | grouping {sites s context inner} :
      Leads ⟨sites, s, .expr context (.grouping inner)⟩ ⟨sites, s, .expr context inner⟩
  | assigned {sites s context name value hops} :
      Leads ⟨sites, s, .expr context (.assign name value hops)⟩ ⟨sites, s, .expr context value⟩
  | operand {sites s context operator right} :
      Leads ⟨sites, s, .expr context (.unary operator right)⟩ ⟨sites, s, .expr context right⟩
  | left {sites s context left operator right} :
      Leads ⟨sites, s, .expr context (.binary left operator right)⟩ ⟨sites, s, .expr context left⟩
  | right {sites s context left left' operator right s'}
      (ran : (expr context left).run s = .ok left' s') :
      Leads ⟨sites, s, .expr context (.binary left operator right)⟩ ⟨sites, s', .expr context right⟩
  | logicalLeft {sites s context left operator right} :
      Leads ⟨sites, s, .expr context (.logical left operator right)⟩ ⟨sites, s, .expr context left⟩
  | logicalRight {sites s context left left' operator right s'}
      (ran : (expr context left).run s = .ok left' s') :
      Leads ⟨sites, s, .expr context (.logical left operator right)⟩
        ⟨sites, s', .expr context right⟩
  | callee {sites s context callee paren arguments} :
      Leads ⟨sites, s, .expr context (.call callee paren arguments)⟩ ⟨sites, s, .expr context callee⟩
  | argument {sites s context callee callee' paren before before' e after s₁ s₂}
      (ran : (expr context callee).run s = .ok callee' s₁)
      (ranBefore : (exprs context before).run s₁ = .ok before' s₂) :
      Leads ⟨sites, s, .expr context (.call callee paren (before ++ e :: after))⟩
        ⟨sites, s₂, .expr context e⟩
  | object {sites s context object name} :
      Leads ⟨sites, s, .expr context (.getField object name)⟩ ⟨sites, s, .expr context object⟩
  | fieldValue {sites s context object name value} :
      Leads ⟨sites, s, .expr context (.setField object name value)⟩ ⟨sites, s, .expr context value⟩
  | fieldObject {sites s context object name value value' s'}
      (ran : (expr context value).run s = .ok value' s') :
      Leads ⟨sites, s, .expr context (.setField object name value)⟩
        ⟨sites, s', .expr context object⟩
  | expression {sites s context e} :
      Leads ⟨sites, s, .stmt context (.expr e)⟩ ⟨sites, s, .expr context e⟩
  | printed {sites s context e} :
      Leads ⟨sites, s, .stmt context (.print e)⟩ ⟨sites, s, .expr context e⟩
  | bare {sites s context e} :
      Leads ⟨sites, s, .stmt context (.bare e)⟩ ⟨sites, s, .expr context e⟩
  | initializer {sites s context name e s'} (declared : (declare name).run s = .ok () s') :
      Leads ⟨sites, s, .stmt context (.varDecl name (some e))⟩ ⟨sites, s', .expr context e⟩
  | block {sites s context statements statements' s'}
      (ran : (stmts context statements).run (s.opened []) = .ok statements' s') :
      Leads ⟨sites, s, .stmt context (.block statements)⟩
        ⟨.block statements' :: sites, s.opened [], .stmts context statements⟩
  | condition {sites s context condition thenBranch elseBranch} :
      Leads ⟨sites, s, .stmt context (.ifElse condition thenBranch elseBranch)⟩
        ⟨sites, s, .expr context condition⟩
  | thenBranch {sites s context condition condition' thenBranch elseBranch s'}
      (ran : (expr context condition).run s = .ok condition' s') :
      Leads ⟨sites, s, .stmt context (.ifElse condition thenBranch elseBranch)⟩
        ⟨sites, s', .stmt context thenBranch⟩
  | elseBranch {sites s context condition condition' thenBranch thenBranch' elseBranch s₁ s₂}
      (ran : (expr context condition).run s = .ok condition' s₁)
      (ranThen : (stmt context thenBranch).run s₁ = .ok thenBranch' s₂) :
      Leads ⟨sites, s, .stmt context (.ifElse condition thenBranch (some elseBranch))⟩
        ⟨sites, s₂, .stmt context elseBranch⟩
  | loopCondition {sites s context condition body} :
      Leads ⟨sites, s, .stmt context (.loop condition body)⟩ ⟨sites, s, .expr context condition⟩
  | loopBody {sites s context condition condition' body s'}
      (ran : (expr context condition).run s = .ok condition' s') :
      Leads ⟨sites, s, .stmt context (.loop condition body)⟩
        ⟨sites, s', .stmt { context with inLoop := true } body⟩
  | returned {sites s context keyword e s₁ s₂}
      (atTop : (reportIf context.function.isNone keyword .returnAtTop).run s = .ok () s₁)
      (fromInit : (reportIf (context.function == some .initializer) keyword
        .returnFromInitializer).run s₁ = .ok () s₂) :
      Leads ⟨sites, s, .stmt context (.ret keyword (some e))⟩ ⟨sites, s₂, .expr context e⟩
  | function {sites s context decl s'}
      (named : (do declare decl.name; define decl.name).run s = .ok () s') :
      Leads ⟨sites, s, .stmt context (.funDecl decl)⟩ ⟨sites, s', .function context .function decl⟩
  | superclass {sites s context name parent members s₁ s₂}
      (named : (do declare name; define name).run s = .ok () s₁)
      (other : (reportIf (parent.name.lexeme == name.lexeme) parent.name
        .inheritsFromItself).run s₁ = .ok () s₂) :
      Leads ⟨sites, s, .stmt context (.classDecl name (some parent) members)⟩
        ⟨sites, s₂, .expr { context with inClass := some .derived } parent.value⟩
  | method {sites s context name before before' decl decl' after s₁ s₂ s₃}
      (named : (do declare name; define name).run s = .ok () s₁)
      (ranBefore : (methods { context with inClass := some .plain } before).run
        (s₁.opened ["this"]) = .ok before' s₂)
      (ran : (function { context with inClass := some .plain } (methodKind decl.name) decl).run s₂
        = .ok decl' s₃) :
      Leads ⟨sites, s, .stmt context (.classDecl name none (before ++ decl :: after))⟩
        ⟨.receiver decl' :: sites, s₂,
          .function { context with inClass := some .plain } (methodKind decl.name) decl⟩
  | inheritingMethod {sites s context name parent parent' members members' before before' decl
        decl' after s₁ s₂ s₃ s₄ s₅} (split : members = before ++ decl :: after)
      (named : (do declare name; define name).run s = .ok () s₁)
      (ranParent : (Scope.superclass context name parent).run s₁ = .ok parent' s₂)
      (ranAll : (methods { context with inClass := some .derived } members).run
        ((s₂.opened ["super"]).opened ["this"]) = .ok members' s₅)
      (ranBefore : (methods { context with inClass := some .derived } before).run
        ((s₂.opened ["super"]).opened ["this"]) = .ok before' s₃)
      (ran : (function { context with inClass := some .derived } (methodKind decl.name) decl).run s₃
        = .ok decl' s₄) :
      Leads ⟨sites, s, .stmt context (.classDecl name (some parent) members)⟩
        ⟨.receiver decl' :: .parent name members' :: sites, s₃,
          .function { context with inClass := some .derived } (methodKind decl.name) decl⟩
  | element {sites s context before before' st after s'}
      (ran : (stmts context before).run s = .ok before' s') :
      Leads ⟨sites, s, .stmts context (before ++ st :: after)⟩ ⟨sites, s', .stmt context st⟩
  | body {sites s context kind name params body body' s₁ s₂}
      (declared : (declareAll params).run (s.opened []) = .ok () s₁)
      (ran : (stmts { context with function := some kind, inLoop := false } body).run s₁
        = .ok body' s₂) :
      Leads ⟨sites, s, .function context kind ⟨name, params, body⟩⟩
        ⟨.body ⟨name, params, body'⟩ :: sites, s₁,
          .stmts { context with function := some kind, inLoop := false } body⟩

/-- The state in which the resolution of a program begins, some names being global already. -/
def State.initial (globals : List String) : State :=
  { globals := globals.foldl (fun known name => known.put name true) Bindings.empty }

/-- The moments of the resolution of a program in which some names are global already. -/
inductive Visits (globals : List String) (p : Program) : Visit → Prop
  | start : Visits globals p ⟨[], .initial globals, .stmts {} p.body⟩
  | step {v v' : Visit} (before : Visits globals p v) (leads : Leads v v') : Visits globals p v'

end Scope
end Arbor
