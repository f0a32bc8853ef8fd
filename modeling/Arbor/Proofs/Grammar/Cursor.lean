import Arbor.Proofs.Grammar.Concatenation
import Arbor.Proofs.Grammar.Plan

/-!
# Reading ends, and never leaves the tokens

Errors may unwind from any depth, and reading resumes inside blocks inside functions inside classes;
yet it comes to its end.  Here every rule of the grammar gets a plan, and the plans are shown to be
steady: each round of a repetition takes a token, or two in a list, so that its fuel outlasts the
tokens, and declarations are called for only where a token is left.  A declaration takes at least that
token, whether it is read or dropped by recovery.

What remains is a suffix of the tokens all along, so the position of the cursor is the number of
tokens in front of it.

## Main definitions

* `Grammar.SteadyExprs`, `Grammar.SteadyStmts`, `Grammar.Plan.topLevel`: the plans of the rules.
* `Grammar.Event.Inside`: what may happen, wherever reading stands.

## Main statements

* `Grammar.rest_of_topLevel`: a program is read to the end.
* `Program.ofTokens_inside`: all that happens while a program is read happens inside its tokens.
-/

namespace Arbor
namespace Grammar

open Stateful

/-! ### Taking tokens -/

/-- A token that was accepted is the one that reading had come to. -/
theorem rest_of_acceptIf? {passes : Token.Kind → Bool} {s s' : State} {t : Token}
    (ran : (acceptIf? passes).run s = .ok (some t) s') : s.rest = t :: s'.rest := by
  have both := run_modifyGet_ok.mp ran
  split at both
  · cases both
  · next first rest tokens =>
    split at both
    · cases both
      exact tokens
    · cases both

theorem length_of_acceptIf? {passes : Token.Kind → Bool} {s s' : State} {t : Token}
    (ran : (acceptIf? passes).run s = .ok (some t) s') : s'.rest.length < s.rest.length := by
  rw [rest_of_acceptIf? ran]
  exact Nat.lt_succ_self _

theorem takes_expect (kind : Token.Kind) (what : String) : Takes (expect kind what) :=
  takes_of_local fun _ => ⟨_, _, local_expect kind what⟩

theorem takes_expression (room : Nat) : Takes (expression room) :=
  takes_of_local fun _ => ⟨_, _, local_expression room⟩

namespace Steady

variable {n : Nat} {α : Type}

def failExpecting (what : String) : Steady n (Grammar.failExpecting what : Parser α) :=
  .bind (.look _) fun _ => .bind (.report _ _) fun _ => .stop _

def expect (kind : Token.Kind) (what : String) : Steady n (Grammar.expect kind what) :=
  .bind (.take _) fun
    | some t => .pure t
    | none => .failExpecting what

end Steady

/-! ### Repetitions -/

namespace Plan

variable {α : Type}

/-- One item of a list, and the others if there is a comma behind it. -/
def separatedItem {limit : Nat} {plural : String} {item : Parser α} (inner : Plan item)
    {fuel count : Nat} {before : List α}
    (others : ∀ next, Plan (separated limit plural item fuel (count + 1) (next :: before))) :
    Plan (Grammar.separatedItem limit plural item fuel count before) :=
  .bind inner fun next => .bind (.take _) fun
    | some _ => others next
    | none => .pure _

/-- Items separated by commas. -/
def separated (limit : Nat) (plural : String) {item : Parser α} (inner : Plan item) :
    ∀ fuel count before, Plan (Grammar.separated limit plural item fuel count before)
  | 0, _, before => .spent before.reverse
  | fuel + 1, _, before =>
    .branch _ _
      (.bind (.look _) fun t => .bind (.report t _) fun _ =>
        separatedItem inner fun next => separated limit plural inner fuel _ (next :: before))
      (separatedItem inner fun next => separated limit plural inner fuel _ (next :: before))

/-- Items up to a closing brace. -/
def itemsUpToBrace {item : Parser (Option α)} (inner : Plan item) :
    ∀ fuel before, Plan (Grammar.itemsUpToBrace item fuel before)
  | 0, before => .spent before.reverse
  | fuel + 1, before => .bind (.look _) fun _ => .bind (.look _) fun _ =>
    .branch _ _ (.pure _) (.bind inner fun
      | some next => itemsUpToBrace inner fuel (next :: before)
      | none => itemsUpToBrace inner fuel before)

/-- Operators of a level. -/
def operatorTail (level : Level) {operand : Parser Expr} (inner : Plan operand) :
    ∀ fuel left, Plan (Grammar.operatorTail level operand fuel left)
  | 0, left => .spent left
  | fuel + 1, left => .bind (.take _) fun
    | none => .pure left
    | some _ => .bind inner fun _ => operatorTail level inner fuel _

/-- Calls and property accesses. -/
def callTail {arguments : Expr → Parser Expr} (inner : ∀ callee, Plan (arguments callee)) :
    ∀ fuel left, Plan (Grammar.callTail arguments fuel left)
  | 0, left => .spent left
  | fuel + 1, left => .bind (.take _) fun
    | some _ => .bind (inner left) fun e => callTail inner fuel e
    | none => .bind (.take _) fun
      | some _ => .bind (Steady.expect (n := 0) _ _).plan fun _ => callTail inner fuel _
      | none => .pure left

end Plan

section Repetitions

variable {α : Type}

/-- Each round of a list takes two tokens, an item and a comma, which is why half as much fuel as
there are tokens is enough.  The one token more is the item that the last round takes. -/
theorem safe_separated {limit : Nat} {plural : String} {item : Parser α} (inner : Steady 0 item)
    (takes : Takes item) : ∀ fuel count before s, Started s → s.rest.length < 2 * fuel →
    (Plan.separated limit plural inner.plan fuel count before).SafeAt s
  | 0, _, _, s, _, few => absurd few (Nat.not_lt_zero _)
  | fuel + 1, count, before, s, started, few => by
    have round : ∀ s', Onward s s' → (Plan.separatedItem inner.plan fun next =>
        Plan.separated limit plural inner.plan fuel (count + 1) (next :: before)).SafeAt s' := by
      intro s' onward
      have started' := started.onward onward
      refine .bind (inner.safe s' started' started'.ready.fits) fun next s₁ ran onward₁ => ?_
      refine .bind (.take _) fun comma? s₂ ran₂ onward₂ => ?_
      cases comma? with
      | none => exact .pure _
      | some comma =>
        have item := takes s' next s₁ started' ran
        have comma := length_of_acceptIf? ran₂
        have less := onward.suffix.length_le
        refine safe_separated inner takes fuel _ _ s₂
          ((started'.onward onward₁).onward onward₂) ?_
        omega
    refine .branch (fun _ => .looking ?_) fun _ => round s (.refl s)
    exact .bind (.single rfl trivial) fun _ s' _ onward => round s' onward

/-- Each round of a sequence takes a token, since an item is asked for only where there is one.  An
item that failed has taken a token as well, by recovery. -/
theorem safe_itemsUpToBrace {item : Parser (Option α)} {inner : Plan item}
    (safe : ∀ s, Started s → s.rest ≠ [] → inner.SafeAt s)
    (takes : ∀ s a? s', Started s → s.rest ≠ [] → item.run s = .ok a? s' →
      s'.rest.length < s.rest.length) :
    ∀ fuel before s, Started s → s.rest.length < fuel →
      (Plan.itemsUpToBrace inner fuel before).SafeAt s
  | 0, _, s, _, few => absurd few (Nat.not_lt_zero _)
  | fuel + 1, before, s, started, few => by
    refine .looking (.looking (.branch (fun _ => .pure _) fun inside => ?_))
    have tokens : s.rest ≠ [] := by
      intro empty
      refine inside ?_
      rw [empty]
      rfl
    refine .bind (safe s started tokens) fun a? s₁ ran onward => ?_
    have started₁ := started.onward onward
    have less := takes s a? s₁ started tokens ran
    cases a? with
    | some a => exact safe_itemsUpToBrace safe takes fuel _ s₁ started₁ (by omega)
    | none => exact safe_itemsUpToBrace safe takes fuel _ s₁ started₁ (by omega)

/-- Each round takes an operator, so there are fewer rounds than tokens, and the fuel lasts. -/
theorem safe_operatorTail {level : Level} {operand : Parser Expr} (inner : Steady 0 operand) :
    ∀ fuel left s, Started s → s.rest.length < fuel →
      (Plan.operatorTail level inner.plan fuel left).SafeAt s
  | 0, _, s, _, few => absurd few (Nat.not_lt_zero _)
  | fuel + 1, left, s, started, few => by
    refine .bind (.take _) fun operator? s₁ ran onward => ?_
    cases operator? with
    | none => exact .pure _
    | some operator =>
      have started₁ := started.onward onward
      refine .bind (inner.safe s₁ started₁ started₁.ready.fits) fun right s₂ _ onward₁ => ?_
      have less := length_of_acceptIf? ran
      have more := onward₁.suffix.length_le
      exact safe_operatorTail inner fuel _ s₂ (started₁.onward onward₁) (by omega)

/-- Each round takes a parenthesis or a dot, so the fuel lasts as long as there are tokens. -/
theorem safe_callTail {arguments : Expr → Parser Expr}
    (inner : ∀ callee, Steady 0 (arguments callee)) : ∀ fuel left s, Started s →
      s.rest.length < fuel → (Plan.callTail (fun callee => (inner callee).plan) fuel left).SafeAt s
  | 0, _, s, _, few => absurd few (Nat.not_lt_zero _)
  | fuel + 1, left, s, started, few => by
    refine .bind (.take _) fun paren? s₁ ran onward => ?_
    have started₁ := started.onward onward
    cases paren? with
    | some paren =>
      refine .bind ((inner left).safe s₁ started₁ started₁.ready.fits) fun e s₂ _ onward₁ => ?_
      have less := length_of_acceptIf? ran
      have more := onward₁.suffix.length_le
      exact safe_callTail inner fuel e s₂ (started₁.onward onward₁) (by omega)
    | none =>
      refine .bind (.take _) fun dot? s₂ ran₂ onward₂ => ?_
      have started₂ := started₁.onward onward₂
      cases dot? with
      | none => exact .pure _
      | some dot =>
        refine .bind ((Steady.expect _ _).safe s₂ started₂ started₂.ready.fits)
          fun name s₃ _ onward₃ => ?_
        have before := onward.suffix.length_le
        have less := length_of_acceptIf? ran₂
        have more := onward₃.suffix.length_le
        exact safe_callTail inner fuel _ s₃ (started₂.onward onward₃) (by omega)

end Repetitions

namespace Steady

variable {n : Nat} {α : Type}

/-- A list in parentheses. -/
def listUpToParen (plural : String) {item : Parser α} (inner : Steady 0 item) (takes : Takes item) :
    Steady n (Grammar.listUpToParen plural item) where
  plan := .bind (.look _) fun _ => .branch _ _ (.pure _)
    (.bind (.look _) fun _ => .separated _ plural inner.plan _ _ _)
  safe s started _ := by
    refine .looking (.branch (fun _ => .pure _) fun _ => .looking ?_)
    have fits := started.ready.fits
    have some := started.inhabited
    exact safe_separated inner takes s.bound 0 [] s started (by omega)

end Steady

/-! ### Expressions -/

namespace Steady

variable {n : Nat}

def assignment (target : Expr) (equals : Token) (value : Expr) :
    Steady n (Grammar.assignment target equals value) := by
  cases target with
  | var | getField => exact .pure _
  | _ => exact .bind (.report _ _) fun _ => .pure _

def primaryWith {inner : Parser Expr} (steady : Steady n inner) :
    Steady n (Grammar.primaryWith inner) :=
  .bind (.look _) fun token => by
    cases token.kind with
    | kwFalse | kwTrue | kwNil | number | string | kwThis | identifier =>
      exact .bind (.take _) fun _ => .pure _
    | kwSuper =>
      exact .bind (.take _) fun _ => .bind (.expect _ _) fun _ => .bind (.expect _ _) fun _ =>
        .pure _
    | leftParen =>
      exact .bind (.take _) fun _ => .bind steady fun _ => .bind (.expect _ _) fun _ => .pure _
    | _ => exact .failExpecting _

def callWith {argument : Parser Expr} (steady : Steady 0 argument) (takes : Takes argument)
    (callee : Expr) : Steady n (Grammar.callWith argument callee) :=
  .bind (.listUpToParen _ steady takes) fun _ => .bind (.expect _ _) fun _ => .pure _

end Steady

/-- Plans for the rules for expressions. -/
structure SteadyExprs (room : Nat) where
  expression : Steady 0 (expression room)
  assigned : Steady 0 (assigned room)
  operators : ∀ level, Steady 0 (operators room level)
  prefixed : Steady 0 (prefixed room)
  called : Steady 0 (called room)
  arguments : ∀ callee, Steady 0 (arguments room callee)
  primary : Steady 0 (primary room)

namespace SteadyExprs

variable {room : Nat}

def operand (rules : SteadyExprs room) : ∀ level : Level, Steady 0 (level.operandParser room)
  | .or => rules.operators .and
  | .and => rules.operators .equality
  | .equality => rules.operators .comparison
  | .comparison => rules.operators .term
  | .term => rules.operators .factor
  | .factor => rules.prefixed

theorem takes_operand (room : Nat) (level : Level) : Takes (level.operandParser room) := by
  refine takes_of_local fun c => ⟨False, Expr.relined c.line, ?_⟩
  cases level with
  | factor => exact (LocalExprs.all c room).prefixed
  | _ => exact (LocalExprs.all c room).operators _

theorem takes_primary (room : Nat) : Takes (Grammar.primary room) :=
  takes_of_local fun c => ⟨_, _, (LocalExprs.all c room).primary⟩

/-- Operands of a level joined by its operators.  The first operand leaves fuel for the last look. -/
def operators_succ (rules : SteadyExprs room) (level : Level) :
    Steady 0 (Grammar.operators (room + 1) level) where
  plan := .bind (rules.operand level).plan fun _ => .bind (.look _) fun _ =>
    .operatorTail level (rules.operand level).plan _ _
  safe s started few := by
    refine .bind ((rules.operand level).safe s started few) fun first s₁ ran onward => .looking ?_
    refine safe_operatorTail (rules.operand level) _ first s₁ (started.onward onward) ?_
    rw [onward.bound]
    exact Nat.lt_of_lt_of_le (takes_operand room level s first s₁ started ran) few

def called_succ (rules : SteadyExprs room) : Steady 0 (Grammar.called (room + 1)) where
  plan := .bind rules.primary.plan fun _ => .bind (.look _) fun _ =>
    .callTail (fun callee => (rules.arguments callee).plan) _ _
  safe s started few := by
    refine .bind (rules.primary.safe s started few) fun first s₁ ran onward => .looking ?_
    refine safe_callTail rules.arguments _ first s₁ (started.onward onward) ?_
    rw [onward.bound]
    exact Nat.lt_of_lt_of_le (takes_primary room s first s₁ started ran) few

def succ (rules : SteadyExprs room) : SteadyExprs (room + 1) where
  expression := rules.assigned
  assigned := .bind (rules.operators .or) fun _ => .bind (.take _) fun
    | none => .pure _
    | some _ => .bind rules.assigned fun _ => .assignment _ _ _
  operators := rules.operators_succ
  prefixed := .bind (.take _) fun
    | some _ => .bind rules.prefixed fun _ => .pure _
    | none => rules.called
  called := rules.called_succ
  arguments := .callWith rules.expression (takes_expression room)
  primary := .primaryWith rules.expression

def all : ∀ room, SteadyExprs room
  | 0 => ⟨.stop _, .stop _, fun _ => .stop _, .stop _, .stop _, fun _ => .stop _, .stop _⟩
  | room + 1 => (all room).succ

end SteadyExprs

/-! ### Statements -/

namespace Steady

variable {n : Nat}

def expression (room : Nat) : Steady n (Grammar.expression room) :=
  (SteadyExprs.all room).expression.weaken

def varDecl : ∀ room, Steady n (Grammar.varDecl room)
  | 0 => .stop _
  | room + 1 => .bind (.expect _ _) fun _ => .bind (.take _) fun
    | some _ => .bind (.map _ (.expression room)) fun _ => .bind (.expect _ _) fun _ => .pure _
    | none => .bind (.pure _) fun _ => .bind (.expect _ _) fun _ => .pure _

def exprStmt : ∀ room, Steady n (Grammar.exprStmt room)
  | 0 => .stop _
  | room + 1 => .bind (.expression room) fun _ => .bind (.expect _ _) fun _ => .pure _

def printStmt : ∀ room, Steady n (Grammar.printStmt room)
  | 0 => .stop _
  | room + 1 => .bind (.expression room) fun _ => .bind (.expect _ _) fun _ => .pure _

def returnStmt (keyword : Token) : ∀ room, Steady n (Grammar.returnStmt keyword room)
  | 0 => .stop _
  | room + 1 => .bind (.look _) fun _ => .branch
    (.bind (.pure _) fun _ => .bind (.expect _ _) fun _ => .pure _)
    (.bind (.map _ (.expression room)) fun _ => .bind (.expect _ _) fun _ => .pure _)

def forInitializer (room : Nat) : Steady n (Grammar.forInitializer room) :=
  .bind (.take _) fun
    | some _ => .pure _
    | none => .bind (.take _) fun
      | some _ => .map _ (.varDecl room)
      | none => .map _ (.exprStmt room)

def optionalUpTo (kind : Token.Kind) (room : Nat) : Steady n (Grammar.optionalUpTo kind room) :=
  .bind (.look _) fun _ => .branch (.pure _) (.map _ (.expression room))

def superclass : Steady n Grammar.superclass :=
  .bind (.take _) fun
    | none => .pure _
    | some _ => .bind (.expect _ _) fun _ => .pure _

def funDeclWith (role : FunRole) {block : Parser (List Stmt)} (inner : Steady 1 block) :
    Steady n (Grammar.funDeclWith role block) :=
  .behind (.expect _ _) (takes_expect _ _) fun _ => .bind (.expect _ _) fun _ =>
    .bind (.listUpToParen _ (.expect _ _) (takes_expect _ _)) fun _ => .bind (.expect _ _) fun _ =>
    .bind (.expect _ _) fun _ => .bind inner fun _ => .pure _

/-- A sequence behind a token, and what stands behind the sequence. -/
def sequence {α β : Type} {item : Parser (Option α)} {k : List α → Parser β} (inner : Plan item)
    (safe : ∀ s, Started s → s.rest ≠ [] → inner.SafeAt s)
    (takes : ∀ s a? s', Started s → s.rest ≠ [] → item.run s = .ok a? s' →
      s'.rest.length < s.rest.length)
    (next : ∀ items, Steady 0 (k items)) :
    Steady 1 (bound >>= fun fuel => Grammar.itemsUpToBrace item fuel [] >>= k) where
  plan := .bind (.look _) fun _ => .bind (.itemsUpToBrace inner _ _) fun items => (next items).plan
  safe s started few := by
    refine .looking (.bind (safe_itemsUpToBrace safe takes s.bound [] s started few) ?_)
    intro items s₁ _ onward
    have started₁ := started.onward onward
    exact (next items).safe s₁ started₁ started₁.ready.fits

def classDeclWith {method : Parser FunDecl} (inner : Steady 0 method) (takes : Takes method) :
    Steady n (Grammar.classDeclWith method) :=
  .behind (.expect _ _) (takes_expect _ _) fun _ => .bind .superclass fun _ =>
    .bind (.expect _ _) fun _ => .sequence (.map _ inner.plan)
      (fun s started _ => inner.safe s started started.ready.fits)
      (fun s _ s' started _ ran => by
        obtain ⟨decl, ran, -⟩ := run_map_ok.mp ran
        exact takes s decl s' started ran)
      fun _ => .bind (.expect _ _) fun _ => .pure _

def declaredWith {classDecl funDecl varDecl statement : Parser Stmt} (isClass : Steady n classDecl)
    (isFun : Steady n funDecl) (isVar : Steady n varDecl) (other : Steady n statement) :
    Steady n (Grammar.declaredWith classDecl funDecl varDecl statement) :=
  .bind (.take _) fun
    | some _ => isClass
    | none => .bind (.take _) fun
      | some _ => isFun
      | none => .bind (.take _) fun
        | some _ => isVar
        | none => other

end Steady

/-- A declaration, with recovery. -/
def Plan.recovering {body : Parser Stmt} (inner : Plan body) : Plan (Grammar.recovering body) :=
  .guarded (.map _ inner) fun
    | .error => .bind .recover fun _ => .pure _
    | .tooDeep => .stop _

/-- Plans for the rules for statements.  Those that begin behind a brace need its head start, and
declarations are called for only in front of a token. -/
structure SteadyStmts (room : Nat) where
  declaration : Plan (declaration room)
  safe_declaration : ∀ s, Started s → s.rest ≠ [] → declaration.SafeAt s
  classDecl : Steady 0 (classDecl room)
  funDecl : ∀ role, Steady 0 (funDecl role room)
  block : Steady 1 (block room)
  statement : Steady 0 (statement room)
  forStmt : Steady 0 (forStmt room)
  ifStmt : Steady 0 (ifStmt room)
  whileStmt : Steady 0 (whileStmt room)

namespace SteadyStmts

variable {room : Nat}

theorem takes_funDecl (role : FunRole) (room : Nat) : Takes (Grammar.funDecl role room) :=
  takes_of_local fun c => ⟨_, _, (LocalStmts.all c room).funDecl role⟩

/-- A declaration takes a token, if there is one, even if it comes to nothing. -/
theorem length_of_declaration {s s' : State} {st? : Option Stmt} (started : Started s)
    (tokens : s.rest ≠ []) (ran : (Grammar.declaration room).run s = .ok st? s') :
    s'.rest.length < s.rest.length :=
  (((LocalStmts.all _ room).declaration s started.fits tokens).of_ok ran).2.1 trivial

def declared (rules : SteadyStmts room) : Steady 0 (Grammar.declared room) :=
  .declaredWith rules.classDecl (.map _ (rules.funDecl .function)) (.varDecl room) rules.statement

/-- What stands behind a brace that is there has its head start: the brace has been taken, so that
less is left than the bound that loops are given. -/
theorem safe_behindBrace (rules : SteadyStmts room) {s : State} (started : Started s)
    (is : s.current.kind = .leftBrace) :
    (Plan.bind (.take fun kind => decide (kind = .leftBrace)) fun _ =>
      .map Stmt.block rules.block.plan).SafeAt s := by
  refine .bind (.take _) fun t? s₁ ran onward => ?_
  refine rules.block.safe s₁ (started.onward onward) ?_
  obtain ⟨t, rest, tokens⟩ : ∃ t rest, s.rest = t :: rest := by
    cases tokens : s.rest with
    | nil =>
      -- behind the last token there is no brace
      rw [State.current, tokens, List.headD_nil, started.ready.ending] at is
      cases is
    | cons t rest => exact ⟨t, rest, rfl⟩
  have faces : s = s.facing (t :: rest) := by rw [← tokens]; rfl
  rw [State.current, tokens] at is
  rw [faces, run_acceptIf?_passes (decide_eq_true is)] at ran
  cases ran
  have fits := started.ready.fits
  rwa [tokens] at fits

def statement_succ (rules : SteadyStmts room) : Steady 0 (Grammar.statement (room + 1)) where
  plan := .bind (.look _) fun token => by
    cases token.kind with
    | kwBreak | kwContinue =>
      exact .bind (.take _) fun _ => .bind (Steady.expect (n := 0) _ _).plan fun _ => .pure _
    | kwFor => exact .bind (.take _) fun _ => rules.forStmt.plan
    | kwIf => exact .bind (.take _) fun _ => rules.ifStmt.plan
    | kwPrint => exact .bind (.take _) fun _ => (Steady.printStmt (n := 0) room).plan
    | kwReturn => exact .bind (.take _) fun _ => (Steady.returnStmt (n := 0) token room).plan
    | kwWhile => exact .bind (.take _) fun _ => rules.whileStmt.plan
    | leftBrace => exact .bind (.take _) fun _ => .map _ rules.block.plan
    | _ => exact (Steady.exprStmt (n := 0) room).plan
  safe s started few := by
    refine .looking ?_
    dsimp only
    cases is : s.current.kind with
    | kwBreak | kwContinue =>
      refine ((Steady.take _).bind fun _ => (Steady.expect _ _).bind fun _ => .pure _).safe s
        started few
    | kwFor => exact ((Steady.take _).bind fun _ => rules.forStmt).safe s started few
    | kwIf => exact ((Steady.take _).bind fun _ => rules.ifStmt).safe s started few
    | kwPrint => exact ((Steady.take _).bind fun _ => .printStmt room).safe s started few
    | kwReturn => exact ((Steady.take _).bind fun _ => .returnStmt _ room).safe s started few
    | kwWhile => exact ((Steady.take _).bind fun _ => rules.whileStmt).safe s started few
    | leftBrace => exact rules.safe_behindBrace started is
    | _ => exact (Steady.exprStmt room).safe s started few

def forStmt_succ (rules : SteadyStmts room) : Steady 0 (Grammar.forStmt (room + 1)) :=
  .bind (.expect _ _) fun _ => .bind (.forInitializer room) fun _ =>
    .bind (.optionalUpTo _ room) fun _ => .bind (.expect _ _) fun _ =>
    .bind (.optionalUpTo _ room) fun _ => .bind (.expect _ _) fun _ =>
    .bind rules.statement fun _ => .pure _

def ifStmt_succ (rules : SteadyStmts room) : Steady 0 (Grammar.ifStmt (room + 1)) :=
  .bind (.expect _ _) fun _ => .bind (.expression room) fun _ => .bind (.expect _ _) fun _ =>
    .bind rules.statement fun _ => .bind (.take _) fun
      | some _ => .bind rules.statement fun _ => .pure _
      | none => .pure _

def whileStmt_succ (rules : SteadyStmts room) : Steady 0 (Grammar.whileStmt (room + 1)) :=
  .bind (.expect _ _) fun _ => .bind (.expression room) fun _ => .bind (.expect _ _) fun _ =>
    .bind rules.statement fun _ => .pure _

theorem safe_recovering {body : Parser Stmt} {inner : Plan body} {s : State}
    (safe : inner.SafeAt s) : (Plan.recovering inner).SafeAt s :=
  .guarded safe fun why _ _ _ => by
    cases why with
    | error => exact .bind (.single rfl trivial) fun _ _ _ _ => .pure _
    | tooDeep => exact .single rfl trivial

def succ (rules : SteadyStmts room) : SteadyStmts (room + 1) where
  declaration := .declare (room + 1) (.recovering rules.declared.plan)
  safe_declaration s started tokens :=
    .declare tokens (safe_recovering (rules.declared.safe s started started.ready.fits))
  classDecl := .classDeclWith (rules.funDecl .method) (takes_funDecl .method room)
  funDecl role := .funDeclWith role rules.block
  block := .sequence rules.declaration rules.safe_declaration
    (fun _ _ _ started tokens ran => length_of_declaration started tokens ran)
    fun _ => .bind (.expect _ _) fun _ => .pure _
  statement := rules.statement_succ
  forStmt := rules.forStmt_succ
  ifStmt := rules.ifStmt_succ
  whileStmt := rules.whileStmt_succ

def all : ∀ room, SteadyStmts room
  | 0 => {
      declaration := .declare 0 (.stop .tooDeep)
      safe_declaration := fun _ _ tokens => .declare tokens (.single rfl trivial)
      classDecl := .stop _
      funDecl := fun _ => .stop _
      block := .stop _
      statement := .stop _
      forStmt := .stop _
      ifStmt := .stop _
      whileStmt := .stop _ }
  | room + 1 => (all room).succ

end SteadyStmts

/-! ### Programs -/

/-- The declarations of a program.  Its fuel may be spent, when no token is left. -/
def Plan.topLevel (room : Nat) : ∀ fuel before, Plan (Grammar.topLevel room fuel before)
  | 0, before => .pure before.reverse
  | fuel + 1, before => .bind (.look _) fun _ => .branch _ _ (.pure _)
    (.bind (.guarded (.map _ (SteadyStmts.all room).declaration) fun _ => .pure none) fun
      | some (some st) => topLevel room fuel (st :: before)
      | some none => topLevel room fuel before
      | none => .bind (.look _) fun _ => .bind (.report _ _) fun _ => .pure _)

/-- Each round at the top level takes a token, since a declaration is only asked for in front of
one.  So the fuel, a round for each token, does not run out before the text does. -/
theorem safe_topLevel (room : Nat) : ∀ fuel before s, Started s →
    (Plan.topLevel room fuel before).SafeAt s
  | 0, _, _, _ => .pure _
  | fuel + 1, before, s, started => by
    refine .looking (.branch (fun _ => .pure _) fun inside => ?_)
    have tokens : s.rest ≠ [] := by
      intro empty
      refine inside ?_
      rw [empty]
      rfl
    refine .bind (.guarded ?_ fun _ _ _ _ => .pure _) fun st? s₁ _ onward => ?_
    · exact (SteadyStmts.all room).safe_declaration s started tokens
    · have started₁ := started.onward onward
      rcases st? with - | - | st
      · exact .looking (.bind (.single rfl trivial) fun _ _ _ _ => .pure _)
      · exact safe_topLevel room fuel _ s₁ started₁
      · exact safe_topLevel room fuel _ s₁ started₁

/-- Only for want of room does a declaration stop early.  An error inside is caught by recovery,
which goes on at the next boundary. -/
theorem stop_of_declaration {room : Nat} {s s' : State} {why : Stop}
    (ran : (declaration room).run s = .error why s') : why = .tooDeep := by
  cases room with
  | zero =>
    cases ran
    rfl
  | succ room =>
    rw [declaration_succ] at ran
    cases inner : (declared room).run s with
    | ok st s₁ => cases (run_recovering_ok inner).symm.trans ran
    | error stop s₁ =>
      cases stop with
      | error => cases (run_recovering_error inner).symm.trans ran
      | tooDeep =>
        cases (run_recovering_tooDeep inner).symm.trans ran
        rfl

/-- Reading a program ends behind its last token, unless rules nest too deep.  Every declaration
takes a token, so a round for each token of the text is enough. -/
theorem rest_of_topLevel {room : Nat} : ∀ {fuel : Nat} {before body : List Stmt} {s final : State},
    Started s → s.rest.length ≤ fuel → (topLevel room fuel before).run s = .ok body final →
    final.rest = [] ∨ ReportsTooDeep final.reports := by
  intro fuel
  induction fuel with
  | zero =>
    intro before body s final _ few ran
    cases ran
    exact .inl (List.eq_nil_of_length_eq_zero (Nat.le_zero.mp few))
  | succ fuel ih =>
    intro before body s final started few ran
    by_cases empty : s.rest = []
    · rw [run_topLevel_nil empty] at ran
      cases ran
      exact .inl empty
    · cases declares : (declaration room).run s with
      | ok st? s₁ =>
        rw [run_topLevel_ok empty declares] at ran
        have less := SteadyStmts.length_of_declaration started empty declares
        have onward := (SteadyStmts.all room).declaration.onward_of_ok declares
        exact ih (started.onward onward) (by omega) ran
      | error why s₁ =>
        rw [run_topLevel_error empty declares] at ran
        cases ran
        exact .inr ⟨_, Array.mem_push_self⟩

/-! ### The cursor -/

theorem exists_cons_suffix {α : Type} {tokens rest : List α} (suffix : rest <:+ tokens)
    (less : rest.length < tokens.length) : ∃ t, t :: rest <:+ tokens := by
  obtain ⟨taken, rfl⟩ := suffix
  rcases List.eq_nil_or_concat taken with rfl | ⟨before, t, rfl⟩
  · exact absurd less (Nat.lt_irrefl _)
  · exact ⟨t, before, by simp⟩

/-- The rule for declarations comes to an end further on, or runs out of room. -/
def Advances (room : Nat) (s : State) : Prop :=
  (∃ st? s', (declaration room).run s = .ok st? s' ∧ s'.rest.length < s.rest.length) ∨
    ∃ s', (declaration room).run s = .error .tooDeep s'

/-- What happens, happens inside the tokens.  A token that was taken is the one in front of what
remains, and wherever recovery looks back there is such a token; declarations are called for in front
of a token, and take it; and no repetition is given up. -/
def Event.Inside (tokens : List Token) : Event → Prop
  | paused s => s.rest <:+ tokens
  | took t s => t :: s.rest <:+ tokens
  | recovered s s' => s'.rest <:+ s.rest ∧ s.rest <:+ tokens ∧
      ∀ rest, rest <:+ s.rest.tail → ∃ t, t :: rest <:+ tokens
  | called room s => s.rest <:+ tokens ∧ s.rest ≠ [] ∧ Advances room s
  | spent _ => False

theorem advances {room : Nat} {s : State} (started : Started s) (tokens : s.rest ≠ []) :
    Advances room s := by
  cases ran : (declaration room).run s with
  | ok st? s' =>
    exact .inl ⟨st?, s', ran, SteadyStmts.length_of_declaration started tokens ran⟩
  | error why s' =>
    obtain rfl := stop_of_declaration ran
    exact .inr ⟨s', ran⟩

/-- Whatever happens between two states happens among the tokens in front of them, of which recovery
leaves at least one behind. -/
theorem Event.inside {s : State} {e : Event} (started : Started s) (tokens : s.rest ≠ [])
    (follows : e.Follows s) (safe : e.Safe) : e.Inside s.rest := by
  cases e with
  | paused => exact follows.suffix
  | took => exact follows.1
  | recovered s₁ s' =>
    refine ⟨follows.2.suffix, follows.1.suffix, fun rest short => ?_⟩
    have suffix := (short.trans (List.tail_suffix _)).trans follows.1.suffix
    refine exists_cons_suffix suffix ?_
    have less := short.length_le
    have whole := follows.1.suffix.length_le
    have some := List.length_pos_iff.mpr tokens
    rw [List.length_tail] at less
    omega
  | called => exact ⟨follows.suffix, safe, advances (started.onward follows) safe⟩
  | spent => exact safe.elim

end Grammar

namespace Program

open Grammar

/-- **Reading ends, and never leaves the tokens.**  Whatever the errors and however they are nested,
a program is read up to the end of its tokens, unless rules nest too deep.  From the start over every
event to the end reading only moves on; all of it happens inside the tokens, every declaration that is
called for takes a token, and no repetition is ended by its bound. -/
theorem ofTokens_inside {ending : Token} (ends : ending.kind = .endOfText) (room : Nat)
    (tokens : List Token) :
    let s : State := { rest := tokens, ending := ending, bound := tokens.length }
    let trace := (Plan.topLevel room tokens.length []).trace s
    ∃ final, (topLevel room tokens.length []).run s =
        .ok (ofTokens room tokens ending).program.body final ∧
      final.reports = (ofTokens room tokens ending).reports ∧
      (final.rest = [] ∨ ReportsTooDeep final.reports) ∧
      (s :: trace.map Event.state ++ [final]).Pairwise Onward ∧
      ∀ e ∈ trace, e.Inside tokens := by
  intro s trace
  obtain ⟨final, ran, reports⟩ := exists_run_topLevel room tokens ending
  have path := (Plan.topLevel room tokens.length []).path s
  rw [behind_of_ok ran] at path
  refine ⟨final, ran, reports, ?_⟩
  by_cases empty : tokens = []
  · subst empty
    cases ran
    refine ⟨.inl rfl, path.pairwise, fun e mem => ?_⟩
    change e ∈ [] at mem
    cases mem
  · have started : Started s := ⟨⟨Nat.le_refl _, ends⟩, List.length_pos_iff.mpr empty⟩
    refine ⟨rest_of_topLevel started (Nat.le_refl _) ran, path.pairwise, fun e mem => ?_⟩
    exact Event.inside started empty (path.follows_of_mem mem).1
      (safe_topLevel room tokens.length [] s started e mem)

/-- Errors in a method, in a block inside a function, and at the very end. -/
def brokenTokens : List Token :=
  (Scan.ofText "class A { f( { var = ; } } fun g() { { print ; ) } x } var").tokens.toList

theorem reports_brokenTokens :
    1 < (ofTokens depthLimit brokenTokens (.ending 1)).reports.size ∧
      ((ofTokens depthLimit brokenTokens (.ending 1)).reports.all fun
        | .grammar _ .tooDeep => false
        | _ => true) = true := by
  decide +kernel

/-- All errors are recovered from, and reading ends behind the last token.  None of the reports is
that rules nest too deep. -/
theorem brokenTokens_inside :
    1 < (ofTokens depthLimit brokenTokens (.ending 1)).reports.size ∧
    ∃ final, (topLevel depthLimit brokenTokens.length []).run
        { rest := brokenTokens, ending := .ending 1, bound := brokenTokens.length } =
      .ok (ofTokens depthLimit brokenTokens (.ending 1)).program.body final ∧ final.rest = [] := by
  obtain ⟨several, shallow⟩ := reports_brokenTokens
  obtain ⟨final, ran, reports, ended, -⟩ :=
    @ofTokens_inside (.ending 1) rfl depthLimit brokenTokens
  refine ⟨several, final, ran, ended.resolve_right ?_⟩
  rintro ⟨t, mem⟩
  rw [reports] at mem
  exact nomatch Array.all_eq_true'.mp shallow _ mem

end Program
end Arbor
