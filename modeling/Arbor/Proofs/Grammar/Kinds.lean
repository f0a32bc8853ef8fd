import Arbor.Proofs.Grammar.Unfolding
import Arbor.Proofs.Parallel

/-!
# Parsers go by the kinds of tokens

A parser decides what to do by the kinds of the tokens in front of it, never by their spelling.  So on
tokens of the same kinds it does the same: it takes as many tokens, nests its rules as deep, and has
as much to report.

The trees it returns differ in their tokens.  The one decision that is made on a tree is whether it can
be assigned to, and that does not depend on tokens.

## Main definitions

* `Grammar.Tracks`: parsers that do the same on tokens of the same kinds.

## Main statements

* `Program.size_reports_ofTokens`: the number of reports depends on the kinds of tokens alone.
-/

namespace Arbor
namespace Grammar

open Stateful

/-- States with tokens of the same kinds and with as many reports. -/
structure State.SameKinds (s t : State) : Prop where
  rest : t.rest.map Token.kind = s.rest.map Token.kind
  ending : t.ending.kind = s.ending.kind
  bound : t.bound = s.bound
  reports : t.reports.size = s.reports.size

/-- Two parsers do the same on tokens of the same kinds, and `goes` holds of what they return. -/
def Tracks {α : Type} (x y : Parser α) (goes : α → α → Prop) : Prop :=
  ∀ s t, s.SameKinds t →
    Parallel x s y t (fun a s' b t' => s'.SameKinds t' ∧ goes a b)
      fun stop s' stop' t' => stop' = stop ∧ s'.SameKinds t'

/-- Two values of which nothing is asked. -/
def Any {α : Type} (_ _ : α) : Prop :=
  True

/-- Two parts of a phrase are both there or both left out. -/
def SameForm {α : Type} (a? b? : Option α) : Prop :=
  b?.isSome = a?.isSome

namespace Tracks

variable {α β : Type} {goes : α → α → Prop} {after : β → β → Prop} {x y : Parser α}

/-- Parsers in sequence do the same if each of them does, where the second ones may rely on what the
first ones' results have in common. -/
theorem bind {k l : α → Parser β} (first : Tracks x y goes)
    (second : ∀ a b, goes a b → Tracks (k a) (l b) after) : Tracks (x >>= k) (y >>= l) after := by
  intro s t same
  refine (first s t same).bind fun a s' b t' both => ?_
  exact second a b both.2 s' t' both.1

/-- Results given without reading only have to have in common what is asked. -/
theorem pure {a b : α} (holds : goes a b) : Tracks (Pure.pure a) (Pure.pure b) goes :=
  fun _ _ same => Parallel.pure ⟨same, holds⟩

/-- Stopping is the same on all tokens, and leaves nothing to compare but the states. -/
theorem throw (stop : Stop) :
    Tracks (MonadExcept.throw stop : Parser α) (MonadExcept.throw stop) goes :=
  fun _ _ same => Parallel.throw ⟨rfl, same⟩

/-- What is done with the results afterwards carries over what they have in common. -/
theorem map {g h : α → β} (tracks : Tracks x y goes) (each : ∀ a b, goes a b → after (g a) (h b)) :
    Tracks (g <$> x) (h <$> y) after := by
  rw [map_eq_pure_bind, map_eq_pure_bind]
  exact tracks.bind fun a b holds => pure (each a b holds)

/-- What is returned is there. -/
theorem some (tracks : Tracks x y goes) : Tracks (some <$> x) (some <$> y) SameForm :=
  tracks.map fun _ _ _ => rfl

end Tracks

/-! ### Tokens -/

section Primitives

variable {α β : Type} {after : β → β → Prop}

/-- The tokens that reading has come to are of one kind, also behind the last ones, where both have
the ending of their text. -/
theorem State.SameKinds.current {s t : State} (same : s.SameKinds t) :
    t.current.kind = s.current.kind := by
  have rest := same.rest
  unfold State.current
  cases mine : s.rest with
  | nil =>
    rw [mine, List.map_nil, List.map_eq_nil_iff] at rest
    rw [rest]
    exact same.ending
  | cons first others =>
    rw [mine, List.map_cons, List.map_eq_cons_iff] at rest
    obtain ⟨first', others', theirs, kind, -⟩ := rest
    rw [theirs]
    exact kind

/-- So a question about the kind of the next token has one answer.  At the end the answer is no on
both sides. -/
theorem State.SameKinds.isAt {s t : State} (same : s.SameKinds t) (kind : Token.Kind) :
    t.isAt kind = s.isAt kind := by
  have rest := same.rest
  unfold State.isAt
  cases mine : s.rest with
  | nil =>
    rw [mine, List.map_nil, List.map_eq_nil_iff] at rest
    rw [rest]
  | cons first others =>
    rw [mine, List.map_cons, List.map_eq_cons_iff] at rest
    obtain ⟨first', others', theirs, kinds, -⟩ := rest
    rw [theirs]
    dsimp only
    rw [kinds]

/-- Texts of the same kinds are used up together. -/
theorem State.SameKinds.isEmpty {s t : State} (same : s.SameKinds t) :
    t.rest.isEmpty = s.rest.isEmpty := by
  have rest := congrArg List.isEmpty same.rest
  rwa [List.isEmpty_map, List.isEmpty_map] at rest

/-- Looking at the current token gives tokens of one kind, and no more can be known of them. -/
theorem tracks_peek : Tracks peek peek fun a b => b.kind = a.kind :=
  fun _ _ same => Parallel.look (Parallel.pure ⟨same, same.current⟩)

theorem tracks_isAt (kind : Token.Kind) : Tracks (isAt kind) (isAt kind) fun a b => b = a :=
  fun _ _ same => Parallel.look (Parallel.pure ⟨same, same.isAt kind⟩)

theorem tracks_atEnd : Tracks atEnd atEnd fun a b => b = a :=
  fun _ _ same => Parallel.look (Parallel.pure ⟨same, same.isEmpty⟩)

theorem tracks_bound : Tracks bound bound fun a b => b = a :=
  fun _ _ same => Parallel.look (Parallel.pure ⟨same, same.bound⟩)

/-- A token is taken from both texts or from neither.  Which one it is may differ, so the results
only agree in being there. -/
theorem tracks_acceptIf? (passes : Token.Kind → Bool) :
    Tracks (acceptIf? passes) (acceptIf? passes) SameForm := by
  intro s t same
  refine Parallel.modifyGet ?_
  have rest := same.rest
  cases mine : s.rest with
  | nil =>
    rw [mine, List.map_nil, List.map_eq_nil_iff] at rest
    rw [rest]
    exact ⟨same, rfl⟩
  | cons first others =>
    rw [mine, List.map_cons, List.map_eq_cons_iff] at rest
    obtain ⟨first', others', theirs, kind, kinds⟩ := rest
    rw [theirs]
    dsimp only
    rw [kind]
    split
    · exact ⟨{ same with rest := kinds }, rfl⟩
    · exact ⟨same, rfl⟩

/-- Both parsers go on with a token, or both without one.  The tokens may differ in all but their
kind. -/
theorem Tracks.acceptIf? {passes : Token.Kind → Bool} {k l : Option Token → Parser β}
    (taken : ∀ a b, Tracks (k (.some a)) (l (.some b)) after) (left : Tracks (k none) (l none) after) :
    Tracks (acceptIf? passes >>= k) (acceptIf? passes >>= l) after := by
  refine (tracks_acceptIf? passes).bind fun a? b? form => ?_
  cases a? with
  | some a =>
    obtain ⟨b, rfl⟩ := Option.isSome_iff_exists.mp form
    exact taken a b
  | none =>
    obtain rfl := Option.isNone_iff_eq_none.mp (Option.isSome_eq_false_iff.mp form)
    exact left

/-- The same for a token of one kind. -/
theorem Tracks.accept? {kind : Token.Kind} {k l : Option Token → Parser β}
    (taken : ∀ a b, Tracks (k (.some a)) (l (.some b)) after) (left : Tracks (k none) (l none) after) :
    Tracks (accept? kind >>= k) (accept? kind >>= l) after :=
  .acceptIf? taken left

/-- Reports may be about different tokens and even be different; what is compared is their
number. -/
theorem tracks_report (a b : Token) (error error' : GrammarError) :
    Tracks (report a error) (report b error') Any := by
  refine fun s t same => Parallel.modify ⟨{ same with reports := ?_ }, trivial⟩
  rw [Array.size_push, Array.size_push, same.reports]

/-- A complaint adds one report and stops, on both sides. -/
theorem tracks_failExpecting (what : String) {goes : α → α → Prop} :
    Tracks (failExpecting what) (failExpecting what) goes :=
  tracks_peek.bind fun _ _ _ => (tracks_report _ _ _ _).bind fun _ _ _ => .throw _

/-- A token that has to be there is there in both texts or in neither. -/
theorem tracks_expect (kind : Token.Kind) (what : String) :
    Tracks (expect kind what) (expect kind what) Any :=
  .accept? (fun _ _ => .pure trivial) (tracks_failExpecting what)

/-- Recovery looks at kinds alone and so drops as many tokens.  It ends behind a semicolon, or in
front of a keyword that starts a statement, and both are kinds. -/
theorem map_kind_resume {tokens : List Token} : ∀ {tokens' : List Token},
    tokens'.map Token.kind = tokens.map Token.kind →
      (resume tokens').map Token.kind = (resume tokens).map Token.kind := by
  induction tokens with
  | nil =>
    intro tokens' same
    rw [List.map_eq_nil_iff.mp same]
  | cons first rest ih =>
    intro tokens' same
    obtain ⟨first', rest', rfl, kind, kinds⟩ := List.map_eq_cons_iff.mp same
    have next : (rest'.head?.any fun t => t.kind.startsStatement) =
        rest.head?.any fun t => t.kind.startsStatement := by
      have heads := congrArg (fun kinds => kinds.head?.any Token.Kind.startsStatement) kinds
      simpa only [List.head?_map, Option.any_map] using heads
    unfold resume
    rw [kind, next]
    split
    · exact kinds
    · exact ih kinds

/-- After recovery the remaining tokens are still of the same kinds. -/
theorem tracks_recover : Tracks recover recover Any :=
  fun _ _ same => Parallel.modify ⟨{ same with rest := map_kind_resume same.rest }, trivial⟩

/-! ### Lists and sequences -/

/-- A list is as long on both sides: whether it goes on is decided by a comma, and whether it is too
long by counting.  The induction is on the bound of the loop. -/
theorem tracks_separated {limit : Nat} {plural : String} {item : Parser α} {goes : α → α → Prop}
    (each : Tracks item item goes) (fuel : Nat) : ∀ (count : Nat) (before before' : List α),
    Tracks (separated limit plural item fuel count before)
      (separated limit plural item fuel count before') Any := by
  induction fuel with
  | zero => exact fun _ _ _ => .pure trivial
  | succ fuel ih =>
    intro count before before'
    have rest : Tracks (separatedItem limit plural item fuel count before)
        (separatedItem limit plural item fuel count before') Any :=
      each.bind fun _ _ _ => .accept? (fun _ _ => ih _ _ _) (.pure trivial)
    rw [separated_succ, separated_succ]
    split
    · exact tracks_peek.bind fun _ _ _ => (tracks_report _ _ _ _).bind fun _ _ _ => rest
    · exact rest

/-- An empty list in parentheses is told by the kind of the next token.  Otherwise the items are
read, with the same fuel on both sides. -/
theorem tracks_listUpToParen {plural : String} {item : Parser α} {goes : α → α → Prop}
    (each : Tracks item item goes) :
    Tracks (listUpToParen plural item) (listUpToParen plural item) Any := by
  refine (tracks_isAt _).bind ?_
  rintro _ closed rfl
  split
  · exact .pure trivial
  · refine tracks_bound.bind ?_
    rintro _ fuel rfl
    exact tracks_separated each _ _ _ _

/-- Items end together.  They may come to nothing, and do so on both sides or on neither, so both
sides make as many rounds. -/
theorem tracks_itemsUpToBrace {item : Parser (Option α)} (each : Tracks item item SameForm)
    (fuel : Nat) : ∀ before before' : List α,
    Tracks (itemsUpToBrace item fuel before) (itemsUpToBrace item fuel before') Any := by
  induction fuel with
  | zero => exact fun _ _ => .pure trivial
  | succ fuel ih =>
    intro before before'
    refine tracks_atEnd.bind ?_
    rintro _ ended rfl
    refine (tracks_isAt _).bind ?_
    rintro _ closed rfl
    split
    · exact .pure trivial
    · refine each.bind fun a? b? form => ?_
      cases a? with
      | some a =>
        obtain ⟨b, rfl⟩ := Option.isSome_iff_exists.mp form
        exact ih _ _
      | none =>
        obtain rfl := Option.isNone_iff_eq_none.mp (Option.isSome_eq_false_iff.mp form)
        exact ih _ _

end Primitives

/-! ### Expressions -/

section Expressions

/-- Whether an expression can be assigned to. -/
def isTarget : Expr → Bool
  | .var _ _ | .getField _ _ => true
  | _ => false

/-- Both expressions can be assigned to, or neither can. -/
def SameTarget (e e' : Expr) : Prop :=
  isTarget e' = isTarget e

/-- What an operator makes of its operands cannot be assigned to, whatever the operands are. -/
theorem isTarget_build (level : Level) (left : Expr) (operator : Token) (right : Expr) :
    isTarget (level.build left operator right) = false := by
  cases level <;> rfl

/-- Operators of one level: without any the operand remains, which can be assigned to on both sides
or on neither; with one it no longer can. -/
theorem tracks_operatorTail {level : Level} {operand : Parser Expr}
    (each : Tracks operand operand SameTarget) (fuel : Nat) : ∀ left left' : Expr,
    SameTarget left left' →
      Tracks (operatorTail level operand fuel left) (operatorTail level operand fuel left')
        SameTarget := by
  induction fuel with
  | zero => exact fun _ _ same => .pure same
  | succ fuel ih =>
    intro left left' same
    refine .acceptIf? (fun operator operator' => ?_) (.pure same)
    refine each.bind fun right right' _ => ih _ _ ?_
    exact (isTarget_build ..).trans (isTarget_build ..).symm

/-- Behind calls and property accesses the last one decides whether the whole can be assigned to.
The induction is on the fuel, of which both sides have the same. -/
theorem tracks_callTail {arguments : Expr → Parser Expr}
    (each : ∀ callee callee', Tracks (arguments callee) (arguments callee') SameTarget)
    (fuel : Nat) : ∀ left left' : Expr, SameTarget left left' →
      Tracks (callTail arguments fuel left) (callTail arguments fuel left') SameTarget := by
  induction fuel with
  | zero => exact fun _ _ same => .pure same
  | succ fuel ih =>
    intro left left' same
    refine .accept? (fun _ _ => (each left left').bind ih) ?_
    refine .accept? (fun _ _ => ?_) (.pure same)
    exact (tracks_expect _ _).bind fun _ _ _ => ih _ _ rfl

/-- Whatever the target is, what becomes of an assignment is none.  If it cannot be assigned to, the
same is reported on both sides, and the target is what remains. -/
theorem tracks_assignment {target target' value value' : Expr} (equals equals' : Token)
    (same : SameTarget target target') :
    Tracks (assignment target equals value) (assignment target' equals' value') SameTarget := by
  have assigned (e : Expr) (t : Token) (v : Expr) (yes : isTarget e = true) :
      ∃ e', isTarget e' = false ∧ assignment e t v = Pure.pure e' := by
    cases e with
    | var | getField => exact ⟨_, rfl, rfl⟩
    | _ => cases yes
  have refused (e : Expr) (t : Token) (v : Expr) (no : isTarget e = false) :
      assignment e t v = (report t .invalidTarget >>= fun _ => Pure.pure e) := by
    cases e with
    | var | getField => cases no
    | _ => rfl
  cases yes : isTarget target with
  | true =>
    obtain ⟨e, no, first⟩ := assigned target equals value yes
    obtain ⟨e', no', second⟩ := assigned target' equals' value' (same.trans yes)
    rw [first, second]
    exact .pure (no'.trans no.symm)
  | false =>
    rw [refused _ _ _ yes, refused _ _ _ (same.trans yes)]
    exact (tracks_report _ _ _ _).bind fun _ _ _ => .pure same

/-- A primary expression is told by the kind of its first token; only a name can be assigned to.  So
both sides have a target or neither has one. -/
theorem tracks_primaryWith {inner : Parser Expr} (each : Tracks inner inner SameTarget) :
    Tracks (primaryWith inner) (primaryWith inner) SameTarget := by
  refine tracks_peek.bind fun a b kind => ?_
  rw [kind]
  cases a.kind with
  | kwFalse | kwTrue | kwNil | number | string | kwThis | identifier =>
    exact .accept? (fun _ _ => .pure rfl) (.pure rfl)
  | kwSuper =>
    have rest : Tracks (do
        let _ ← expect .dot "'.' after 'super'"
        let method ← expect .identifier "superclass method name"
        Pure.pure (Expr.super a method none)) (do
        let _ ← expect .dot "'.' after 'super'"
        let method ← expect .identifier "superclass method name"
        Pure.pure (Expr.super b method none)) SameTarget :=
      (tracks_expect _ _).bind fun _ _ _ => (tracks_expect _ _).bind fun _ _ _ => .pure rfl
    exact .accept? (fun _ _ => rest) rest
  | leftParen =>
    have rest : Tracks (do
        let e ← inner
        let _ ← expect .rightParen "')' after expression"
        Pure.pure (Expr.grouping e)) (do
        let e ← inner
        let _ ← expect .rightParen "')' after expression"
        Pure.pure (Expr.grouping e)) SameTarget :=
      each.bind fun _ _ _ => (tracks_expect _ _).bind fun _ _ _ => .pure rfl
    exact .accept? (fun _ _ => rest) rest
  | _ => exact tracks_failExpecting _

/-- A call cannot be assigned to, and its arguments need not have anything in common. -/
theorem tracks_callWith {argument : Parser Expr} (each : Tracks argument argument SameTarget)
    (callee callee' : Expr) :
    Tracks (callWith argument callee) (callWith argument callee') SameTarget :=
  (tracks_listUpToParen each).bind fun _ _ _ => (tracks_expect _ _).bind fun _ _ _ => .pure rfl

/-- What the rules for expressions do with a given room. -/
structure TracksExprs (room : Nat) : Prop where
  expression : Tracks (expression room) (expression room) SameTarget
  assigned : Tracks (assigned room) (assigned room) SameTarget
  operators : ∀ level, Tracks (operators room level) (operators room level) SameTarget
  prefixed : Tracks (prefixed room) (prefixed room) SameTarget
  called : Tracks (called room) (called room) SameTarget
  arguments : ∀ callee callee',
    Tracks (arguments room callee) (arguments room callee') SameTarget
  primary : Tracks (primary room) (primary room) SameTarget

/-- One level more, for all rules of expressions at once.  What they hand on is whether the tree can
be assigned to, which is all that the rules above ask of it. -/
theorem TracksExprs.succ {room : Nat} (tracks : TracksExprs room) : TracksExprs (room + 1) where
  expression := tracks.assigned
  assigned := by
    refine (tracks.operators .or).bind fun target target' same => ?_
    refine .accept? (fun equals equals' => ?_) (.pure same)
    exact tracks.assigned.bind fun _ _ _ => tracks_assignment equals equals' same
  operators level := by
    have operand : Tracks (level.operandParser room) (level.operandParser room) SameTarget := by
      unfold Level.operandParser
      split
      · exact tracks.operators _
      · exact tracks.prefixed
    rw [operators_succ]
    refine operand.bind fun first first' same => tracks_bound.bind ?_
    rintro _ fuel rfl
    exact tracks_operatorTail operand fuel first first' same
  prefixed :=
    .acceptIf? (fun _ _ => tracks.prefixed.bind fun _ _ _ => .pure rfl) tracks.called
  called := by
    refine tracks.primary.bind fun first first' same => tracks_bound.bind ?_
    rintro _ fuel rfl
    exact tracks_callTail tracks.arguments fuel first first' same
  arguments := tracks_callWith tracks.expression
  primary := tracks_primaryWith tracks.expression

/-- The rules of expressions do the same at every room. -/
theorem TracksExprs.all (room : Nat) : TracksExprs room := by
  induction room with
  | zero =>
    exact ⟨.throw _, .throw _, fun _ => .throw _, .throw _, .throw _, fun _ _ => .throw _, .throw _⟩
  | succ room ih => exact ih.succ

/-- Expressions are read to trees that can be assigned to on both sides or on neither. -/
theorem tracks_expression (room : Nat) : Tracks (expression room) (expression room) SameTarget :=
  (TracksExprs.all room).expression

end Expressions

/-! ### Statements -/

section Statements

/-- A variable declaration is recognized by kinds; the trees need not have anything in common, for
no rule looks into a statement that it has read. -/
theorem tracks_varDecl (room : Nat) : Tracks (varDecl room) (varDecl room) Any := by
  cases room with
  | zero => exact .throw _
  | succ room =>
    refine (tracks_expect _ _).bind fun name name' _ => ?_
    have rest (e? e?' : Option Expr) : Tracks (do
        let _ ← expect .semicolon "';' after variable declaration"
        Pure.pure (Stmt.varDecl name e?)) (do
        let _ ← expect .semicolon "';' after variable declaration"
        Pure.pure (Stmt.varDecl name' e?')) Any :=
      (tracks_expect _ _).bind fun _ _ _ => .pure trivial
    refine .accept? (fun _ _ => ?_) (rest none none)
    exact (tracks_expression room).some.bind fun _ _ _ => rest _ _

theorem tracks_exprStmt (room : Nat) : Tracks (exprStmt room) (exprStmt room) Any := by
  cases room with
  | zero => exact .throw _
  | succ room =>
    exact (tracks_expression room).bind fun _ _ _ => (tracks_expect _ _).bind fun _ _ _ =>
      .pure trivial

theorem tracks_printStmt (room : Nat) : Tracks (printStmt room) (printStmt room) Any := by
  cases room with
  | zero => exact .throw _
  | succ room =>
    exact (tracks_expression room).bind fun _ _ _ => (tracks_expect _ _).bind fun _ _ _ =>
      .pure trivial

/-- An expression that may be left out is left out on both sides or on neither. -/
theorem tracks_optionalUpTo (kind : Token.Kind) (room : Nat) :
    Tracks (optionalUpTo kind room) (optionalUpTo kind room) SameForm := by
  refine (tracks_isAt kind).bind ?_
  rintro _ stops rfl
  split
  · exact .pure rfl
  · exact (tracks_expression room).some

/-- A return statement is compared with one whose keyword may differ, as keywords are part of the
trees.  Whether a value follows is told by the kind of the next token. -/
theorem tracks_returnStmt (keyword keyword' : Token) (room : Nat) :
    Tracks (returnStmt keyword room) (returnStmt keyword' room) Any := by
  cases room with
  | zero => exact .throw _
  | succ room =>
    have rest (e? e?' : Option Expr) : Tracks (do
        let _ ← expect .semicolon "';' after return value"
        Pure.pure (Stmt.ret keyword e?)) (do
        let _ ← expect .semicolon "';' after return value"
        Pure.pure (Stmt.ret keyword' e?')) Any :=
      (tracks_expect _ _).bind fun _ _ _ => .pure trivial
    refine (tracks_isAt _).bind ?_
    rintro _ closed rfl
    split
    · exact rest none none
    · exact (tracks_expression room).some.bind fun _ _ _ => rest _ _

/-- The first clause of a loop is there on both sides or on neither. -/
theorem tracks_forInitializer (room : Nat) :
    Tracks (forInitializer room) (forInitializer room) SameForm := by
  refine .accept? (fun _ _ => .pure rfl) ?_
  exact .accept? (fun _ _ => (tracks_varDecl room).some) (tracks_exprStmt room).some

/-- A function is read to the end on both sides, or both fail at the same place. -/
theorem tracks_funDeclWith (role : FunRole) {block : Parser (List Stmt)}
    (each : Tracks block block Any) : Tracks (funDeclWith role block) (funDeclWith role block) Any := by
  refine (tracks_expect _ _).bind fun _ _ _ => (tracks_expect _ _).bind fun _ _ _ => ?_
  refine (tracks_listUpToParen (tracks_expect _ _)).bind fun _ _ _ => ?_
  refine (tracks_expect _ _).bind fun _ _ _ => (tracks_expect _ _).bind fun _ _ _ => ?_
  exact each.bind fun _ _ _ => .pure trivial

/-- A superclass is named on both sides or on neither. -/
theorem tracks_superclass : Tracks superclass superclass SameForm :=
  .accept? (fun _ _ => (tracks_expect _ _).bind fun _ _ _ => .pure rfl) (.pure rfl)

/-- The methods of a class come one behind the other up to its brace, which stands at the same place
on both sides. -/
theorem tracks_classDeclWith {method : Parser FunDecl} (each : Tracks method method Any) :
    Tracks (classDeclWith method) (classDeclWith method) Any := by
  refine (tracks_expect _ _).bind fun _ _ _ => tracks_superclass.bind fun _ _ _ => ?_
  refine (tracks_expect _ _).bind fun _ _ _ => tracks_bound.bind ?_
  rintro _ fuel rfl
  refine (tracks_itemsUpToBrace each.some fuel [] []).bind fun _ _ _ => ?_
  exact (tracks_expect _ _).bind fun _ _ _ => .pure trivial

theorem tracks_declaredWith {classDecl funDecl varDecl statement : Parser Stmt}
    (ofClass : Tracks classDecl classDecl Any) (ofFun : Tracks funDecl funDecl Any)
    (ofVar : Tracks varDecl varDecl Any) (other : Tracks statement statement Any) :
    Tracks (declaredWith classDecl funDecl varDecl statement)
      (declaredWith classDecl funDecl varDecl statement) Any :=
  .accept? (fun _ _ => ofClass) (.accept? (fun _ _ => ofFun) (.accept? (fun _ _ => ofVar) other))

/-- A declaration succeeds or is recovered from on both sides, and after recovery the texts are
still of the same kinds. -/
theorem tracks_recovering {body : Parser Stmt} (each : Tracks body body Any) :
    Tracks (recovering body) (recovering body) SameForm := by
  intro s t same
  refine Parallel.tryCatch (each.some s t same) ?_
  rintro _ s' stop t' ⟨rfl, same'⟩
  cases stop with
  | error =>
    have none : Tracks (do recover; Pure.pure none) (do recover; Pure.pure none)
        (SameForm (α := Stmt)) :=
      tracks_recover.bind fun _ _ _ => .pure rfl
    exact none s' t' same'
  | tooDeep => exact Parallel.throw ⟨rfl, same'⟩

/-- What the rules for statements do with a given room. -/
structure TracksStmts (room : Nat) : Prop where
  declaration : Tracks (declaration room) (declaration room) SameForm
  classDecl : Tracks (classDecl room) (classDecl room) Any
  funDecl : ∀ role, Tracks (funDecl role room) (funDecl role room) Any
  block : Tracks (block room) (block room) Any
  statement : Tracks (statement room) (statement room) Any
  forStmt : Tracks (forStmt room) (forStmt room) Any
  ifStmt : Tracks (ifStmt room) (ifStmt room) Any
  whileStmt : Tracks (whileStmt room) (whileStmt room) Any

namespace TracksStmts

variable {room : Nat}

/-- One level of statements, by the kind of their first token, which is the same on both sides. -/
theorem statement_succ (tracks : TracksStmts room) :
    Tracks (Grammar.statement (room + 1)) (Grammar.statement (room + 1)) Any := by
  refine tracks_peek.bind fun a b kind => ?_
  rw [kind]
  -- whether the keyword is taken or not, the rule behind it goes on
  have after {x y : Parser Stmt} (word : Token.Kind) (rule : Tracks x y Any) :
      Tracks (do let _ ← Grammar.accept? word; x) (do let _ ← Grammar.accept? word; y) Any :=
    .accept? (fun _ _ => rule) rule
  cases a.kind with
  | kwBreak | kwContinue =>
    exact after _ ((tracks_expect _ _).bind fun _ _ _ => .pure trivial)
  | kwFor => exact after _ tracks.forStmt
  | kwIf => exact after _ tracks.ifStmt
  | kwPrint => exact after _ (tracks_printStmt room)
  | kwReturn => exact after _ (tracks_returnStmt a b room)
  | kwWhile => exact after _ tracks.whileStmt
  | leftBrace => exact after _ (tracks.block.map fun _ _ _ => trivial)
  | _ => exact tracks_exprStmt room

theorem forStmt_succ (tracks : TracksStmts room) :
    Tracks (Grammar.forStmt (room + 1)) (Grammar.forStmt (room + 1)) Any := by
  refine (tracks_expect _ _).bind fun _ _ _ => (tracks_forInitializer room).bind fun _ _ _ => ?_
  refine (tracks_optionalUpTo _ room).bind fun _ _ _ => (tracks_expect _ _).bind fun _ _ _ => ?_
  refine (tracks_optionalUpTo _ room).bind fun _ _ _ => (tracks_expect _ _).bind fun _ _ _ => ?_
  exact tracks.statement.bind fun _ _ _ => .pure trivial

/-- One level of conditionals; whether there is an `else` is a matter of kinds. -/
theorem ifStmt_succ (tracks : TracksStmts room) :
    Tracks (Grammar.ifStmt (room + 1)) (Grammar.ifStmt (room + 1)) Any := by
  refine (tracks_expect _ _).bind fun _ _ _ => (tracks_expression room).bind fun _ _ _ => ?_
  refine (tracks_expect _ _).bind fun _ _ _ => tracks.statement.bind fun _ _ _ => ?_
  exact .accept? (fun _ _ => tracks.statement.bind fun _ _ _ => .pure trivial) (.pure trivial)

theorem whileStmt_succ (tracks : TracksStmts room) :
    Tracks (Grammar.whileStmt (room + 1)) (Grammar.whileStmt (room + 1)) Any := by
  refine (tracks_expect _ _).bind fun _ _ _ => (tracks_expression room).bind fun _ _ _ => ?_
  refine (tracks_expect _ _).bind fun _ _ _ => tracks.statement.bind fun _ _ _ => ?_
  exact .pure trivial

/-- One level more, for all rules of statements at once, as they call each other with less room. -/
theorem succ (tracks : TracksStmts room) : TracksStmts (room + 1) where
  declaration := tracks_recovering (tracks_declaredWith tracks.classDecl
    ((tracks.funDecl .function).map fun _ _ _ => trivial) (tracks_varDecl room) tracks.statement)
  classDecl := tracks_classDeclWith (tracks.funDecl .method)
  funDecl role := tracks_funDeclWith role tracks.block
  block := by
    refine tracks_bound.bind ?_
    rintro _ fuel rfl
    refine (tracks_itemsUpToBrace tracks.declaration fuel [] []).bind fun _ _ _ => ?_
    exact (tracks_expect _ _).bind fun _ _ _ => .pure trivial
  statement := tracks.statement_succ
  forStmt := tracks.forStmt_succ
  ifStmt := tracks.ifStmt_succ
  whileStmt := tracks.whileStmt_succ

/-- The rules of statements do the same at every room. -/
theorem all (room : Nat) : TracksStmts room := by
  induction room with
  | zero =>
    exact ⟨.throw _, .throw _, fun _ => .throw _, .throw _, .throw _, .throw _, .throw _, .throw _⟩
  | succ room ih => exact ih.succ

end TracksStmts

/-- Two declarations are both read, or both are dropped, or both nest too deep. -/
def SameEnd (next next' : Option (Option Stmt)) : Prop :=
  next'.map Option.isSome = next.map Option.isSome

/-- At the top, nesting too deeply is caught as well, and it is met on both sides or on neither. -/
theorem tracks_caught (room : Nat) :
    Tracks (tryCatch (some <$> declaration room) fun _ => pure none)
      (tryCatch (some <$> declaration room) fun _ => pure none) SameEnd := by
  intro s t same
  have declared : Tracks (some <$> declaration room) (some <$> declaration room) SameEnd :=
    (TracksStmts.all room).declaration.map fun _ _ form => congrArg some form
  refine Parallel.tryCatch (declared s t same) ?_
  exact fun _ s' _ t' stops => Parallel.pure ⟨stops.2, rfl⟩

/-- The declarations of a program are read in as many rounds on both sides.  A declaration is caught
on both sides or on neither, and for the same reason. -/
theorem tracks_topLevel (room fuel : Nat) : ∀ before before' : List Stmt,
    Tracks (topLevel room fuel before) (topLevel room fuel before') Any := by
  induction fuel with
  | zero => exact fun _ _ => .pure trivial
  | succ fuel ih =>
    intro before before'
    refine tracks_atEnd.bind ?_
    rintro _ ended rfl
    split
    · exact .pure trivial
    · refine (tracks_caught room).bind fun next next' same => ?_
      rcases next with _ | _ | st <;> rcases next' with _ | _ | st'
      case none.none =>
        exact tracks_peek.bind fun _ _ _ => (tracks_report _ _ _ _).bind fun _ _ _ => .pure trivial
      case some.none.some.none => exact ih _ _
      case some.some.some.some => exact ih _ _
      all_goals cases same

end Statements

end Grammar

/-- There is as much to report on tokens of the same kinds, although the lexemes that are reported
may differ. -/
theorem Program.size_reports_ofTokens (room : Nat) {tokens tokens' : List Token}
    {ending ending' : Token} (same : tokens'.map Token.kind = tokens.map Token.kind)
    (ends : ending'.kind = ending.kind) :
    (ofTokens room tokens' ending').reports.size = (ofTokens room tokens ending).reports.size := by
  have length : tokens'.length = tokens.length := by
    have lengths := congrArg List.length same
    rwa [List.length_map, List.length_map] at lengths
  have start : Grammar.State.SameKinds ⟨tokens, ending, tokens.length, #[]⟩
      ⟨tokens', ending', tokens.length, #[]⟩ := ⟨same, ends, rfl, rfl⟩
  have both := Grammar.tracks_topLevel room tokens.length [] [] _ _ start
  unfold ofTokens
  dsimp only
  rw [length]
  cases ran : (Grammar.topLevel room tokens.length []).run ⟨tokens, ending, tokens.length, #[]⟩ with
  | ok body final =>
    obtain ⟨body', final', ran', holds, -⟩ := both.of_ok ran
    rw [ran']
    exact holds.reports
  | error stop final =>
    obtain ⟨stop', final', ran', -, holds⟩ := both.of_error ran
    rw [ran']
    exact holds.reports

end Arbor
