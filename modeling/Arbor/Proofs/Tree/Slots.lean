import Arbor.Proofs.Program.Formed
import Arbor.Tree.Program

/-!
# What stands in the slots of a tree

A stored tree says nothing about what may stand where.  The kinds of nodes do: each field of a node
is a slot that asks for a token, a node, a list of one of these, or a plain value, and says of which
kinds.  A tree fits a slot if it is what the slot asks for and the parts of all its nodes fit their
slots.

A well-formed program is stored as a tree that fits: nothing is missing, no expression stands for
a statement or the other way round, and every token is one that its node can use.

## Main definitions

* `Slot`, `NodeKind.slots`: what the fields of nodes ask for.
* `Tree.Fits`: trees that have in every slot what it asks for.

## Main statements

* `Program.fits_toTree`: well-formed programs are stored as such trees.
-/

namespace Arbor

/-- What a field of a node asks for. -/
inductive Slot where
  /-- A token of one of the kinds. -/
  | token (kinds : List Token.Kind)
  /-- A node of one of the kinds. -/
  | node (kinds : List NodeKind)
  /-- A node of one of the kinds, or nothing. -/
  | optional (kinds : List NodeKind)
  /-- A list whose elements are of one sort. -/
  | list (each : Slot)
  /-- A plain value: nothing, a truth value, a number or a text. -/
  | constant

namespace NodeKind

/-- The kinds of expressions. -/
def expressions : List NodeKind :=
  [assign, binary, call, getField, grouping, literal, logical, setField, super, this, unary, var]

/-- The kinds of statements that may stand alone, as a branch or the body of a loop. -/
def branches : List NodeKind :=
  [block, breakStmt, continueStmt, exprStmt, ifStmt, printStmt, returnStmt, whileStmt]

/-- The kinds of statements that may stand in a list. -/
def statements : List NodeKind :=
  [varDecl, funDecl, classDecl] ++ branches

/-- The operators between two operands that are always both evaluated. -/
def binaryOperators : List Token.Kind :=
  [.bangEqual, .equalEqual, .greater, .greaterEqual, .less, .lessEqual, .minus, .plus, .slash,
    .star]

/-- What the fields of a node ask for, in the order in which they are stored. -/
def slots : NodeKind → List Slot
  | program => [.list (.node statements)]
  | assign => [.token [.identifier], .node expressions]
  | binary => [.node expressions, .token binaryOperators, .node expressions]
  | call => [.node expressions, .token [.rightParen], .list (.node expressions)]
  | getField => [.node expressions, .token [.identifier]]
  | grouping => [.node expressions]
  | literal => [.constant]
  | logical => [.node expressions, .token [.kwAnd, .kwOr], .node expressions]
  | setField => [.node expressions, .token [.identifier], .node expressions]
  | super => [.token [.kwSuper], .token [.identifier]]
  | this => [.token [.kwThis]]
  | unary => [.token [.bang, .minus], .node expressions]
  | var => [.token [.identifier]]
  | block => [.list (.node statements)]
  | breakStmt => [.token [.kwBreak]]
  | continueStmt => [.token [.kwContinue]]
  | exprStmt => [.node expressions]
  | funDecl => [.token [.identifier], .list (.token [.identifier]), .list (.node statements)]
  | classDecl => [.token [.identifier], .optional [var], .list (.node [funDecl])]
  | ifStmt => [.node expressions, .node branches, .optional branches]
  | printStmt => [.node expressions]
  | returnStmt => [.token [.kwReturn], .optional expressions]
  | varDecl => [.token [.identifier], .optional expressions]
  | whileStmt => [.node expressions, .node branches]

example (kind : NodeKind) : kind.slots.length = kind.fields.length := by
  cases kind <;> rfl

end NodeKind

namespace Tree

mutual

/-- Whether a tree is what a slot asks for, down to its leaves. -/
def Fits : Tree → Slot → Prop
  | token t, .token kinds =>
    (∃ kind ∈ kinds, t.kind = .str kind.name) ∧ ∃ lexeme, t.lexeme = .str lexeme
  | node kind parts, .node kinds => kind ∈ kinds ∧ PartsFit parts kind.slots
  | node kind parts, .optional kinds => kind ∈ kinds ∧ PartsFit parts kind.slots
  | null, .optional _ => True
  | list items, .list each => AllFit items each
  | null, .constant | bool _, .constant | number _, .constant | text _, .constant => True
  | _, _ => False

/-- Whether all trees of a list are what a slot asks for. -/
def AllFit : List Tree → Slot → Prop
  | [], _ => True
  | t :: rest, slot => t.Fits slot ∧ AllFit rest slot

/-- Whether trees are what some slots ask for, one for each. -/
def PartsFit : List Tree → List Slot → Prop
  | [], [] => True
  | t :: rest, slot :: slots => t.Fits slot ∧ PartsFit rest slots
  | _, _ => False

end

/-- A node may stand where it may be left out. -/
theorem Fits.optional {t : Tree} {kinds : List NodeKind} (fits : t.Fits (.node kinds)) :
    t.Fits (.optional kinds) := by
  cases t with
  | node kind parts => exact fits
  | _ => exact fits.elim

/-- A node may stand wherever nodes of its kind may. -/
theorem Fits.move {kind : NodeKind} {parts : List Tree} {kinds others : List NodeKind}
    (fits : (node kind parts).Fits (.node kinds)) (mem : kind ∈ others) :
    (node kind parts).Fits (.node others) :=
  ⟨mem, fits.2⟩

end Tree

theorem Constant.fits_toTree (value : Constant) : value.toTree.Fits .constant := by
  cases value <;> trivial

theorem Token.fits_toTree {t : Token} {kinds : List Token.Kind} (mem : t.kind ∈ kinds) :
    t.toTree.Fits (.token kinds) :=
  ⟨⟨t.kind, mem, rfl⟩, t.lexeme, rfl⟩

/-- A token of the one kind that is asked for. -/
theorem Token.fits_of_kind {t : Token} {kind : Token.Kind} (same : t.kind = kind) :
    t.toTree.Fits (.token [kind]) :=
  Token.fits_toTree (List.mem_singleton.mpr same)

/-- A token of one of the two kinds that are asked for. -/
theorem Token.fits_of_either {t : Token} {kind other : Token.Kind}
    (same : t.kind = kind ∨ t.kind = other) : t.toTree.Fits (.token [kind, other]) :=
  Token.fits_toTree (by simpa using same)

theorem Token.Kind.mem_binaryOperators {kind : Token.Kind} (binary : kind.isBinary = true) :
    kind ∈ NodeKind.binaryOperators := by
  unfold Token.Kind.isBinary at binary
  split at binary
  case h_11 => cases binary
  all_goals decide

theorem Token.allFit_map_toTree {kind : Token.Kind} : ∀ {ts : List Token},
    (∀ t ∈ ts, t.kind = kind) → Tree.AllFit (ts.map Token.toTree) (.token [kind])
  | [], _ => trivial
  | t :: _, each =>
    ⟨Token.fits_of_kind (each t List.mem_cons_self),
      Token.allFit_map_toTree fun other mem => each other (List.mem_cons_of_mem _ mem)⟩

section Formed

variable {token : Token → Prop}

mutual

/-- The tree of a well-formed expression fits wherever an expression is asked for. -/
theorem Expr.fits_toTree : ∀ e : Expr, e.Formed token → e.toTree.Fits (.node NodeKind.expressions)
  | .literal value, _ => ⟨by decide, value.fits_toTree, trivial⟩
  | .grouping inner, formed => ⟨by decide, inner.fits_toTree formed, trivial⟩
  | .var _ _, formed => ⟨by decide, Token.fits_of_kind formed.1, trivial⟩
  | .assign _ value _, formed =>
    ⟨by decide, Token.fits_of_kind formed.1, value.fits_toTree formed.2.2, trivial⟩
  | .unary _ right, formed =>
    ⟨by decide, Token.fits_of_either formed.1, right.fits_toTree formed.2.2, trivial⟩
  | .binary left _ right, formed =>
    ⟨by decide, left.fits_toTree formed.2.2.1,
      Token.fits_toTree (Token.Kind.mem_binaryOperators formed.1),
      right.fits_toTree formed.2.2.2, trivial⟩
  | .logical left _ right, formed =>
    ⟨by decide, left.fits_toTree formed.2.2.1, Token.fits_of_either formed.1,
      right.fits_toTree formed.2.2.2, trivial⟩
  | .call callee _ arguments, formed =>
    ⟨by decide, callee.fits_toTree formed.2.2.1, Token.fits_of_kind formed.1,
      Expr.allFit_toTree arguments formed.2.2.2, trivial⟩
  | .getField object _, formed =>
    ⟨by decide, object.fits_toTree formed.2.2, Token.fits_of_kind formed.1, trivial⟩
  | .setField object _ value, formed =>
    ⟨by decide, object.fits_toTree formed.2.2.1, Token.fits_of_kind formed.1,
      value.fits_toTree formed.2.2.2, trivial⟩
  | .this _ _, formed => ⟨by decide, Token.fits_of_kind formed.1, trivial⟩
  | .super _ _ _, formed =>
    ⟨by decide, Token.fits_of_kind formed.1, Token.fits_of_kind formed.2.2.1, trivial⟩
  | .misfit _, formed => formed.elim
termination_by structural e => e

theorem Expr.allFit_toTree : ∀ es : List Expr, Expr.AllFormed token es →
    Tree.AllFit (Expr.listToTree es) (.node NodeKind.expressions)
  | [], _ => trivial
  | e :: rest, formed => ⟨e.fits_toTree formed.1, Expr.allFit_toTree rest formed.2⟩
termination_by structural es => es

end

theorem Expr.fits_optionToTree {e? : Option Expr} (formed : Expr.OptionFormed token e?) :
    (Expr.optionToTree e?).Fits (.optional NodeKind.expressions) := by
  cases e? with
  | none => trivial
  | some e => exact (e.fits_toTree formed).optional

theorem Superclass.fits_toTree {parent : Superclass} (formed : parent.Formed token) :
    (Expr.optionToTree (some parent.value)).Fits (.optional [.var]) := by
  obtain ⟨kind, -, hops, same⟩ := formed
  rw [same]
  exact ⟨by decide, Token.fits_of_kind kind, trivial⟩

/-- A statement that is no declaration may stand alone. -/
theorem Stmt.fits_branch {s : Stmt} (formed : s.Formed token) (plain : s.isDeclaration = false)
    (fits : s.toTree.Fits (.node NodeKind.statements)) :
    s.toTree.Fits (.node NodeKind.branches) := by
  cases s with
  | varDecl | funDecl | classDecl => cases plain
  | bare | misfit => exact formed.elim
  | ifElse condition thenBranch elseBranch => cases elseBranch <;> exact fits.move (by decide)
  | _ => exact fits.move (by decide)

mutual

/-- The tree of a well-formed statement fits wherever a statement is asked for, and what its parts
are asked to be is what they are. -/
theorem Stmt.fits_toTree : ∀ s : Stmt, s.Formed token → s.toTree.Fits (.node NodeKind.statements)
  | .expr e, formed => ⟨by decide, e.fits_toTree formed, trivial⟩
  | .print e, formed => ⟨by decide, e.fits_toTree formed, trivial⟩
  | .varDecl _ _, formed =>
    ⟨by decide, Token.fits_of_kind formed.1, Expr.fits_optionToTree formed.2.2, trivial⟩
  | .block statements, formed => ⟨by decide, Stmt.allFit_toTree statements formed, trivial⟩
  | .ifElse condition thenBranch none, formed =>
    ⟨by decide, condition.fits_toTree formed.1,
      Stmt.fits_branch formed.2.2 formed.2.1 (thenBranch.fits_toTree formed.2.2), trivial, trivial⟩
  | .ifElse condition thenBranch (some elseBranch), formed => by
    obtain ⟨formedCondition, thenPlain, formedThen, elsePlain, formedElse⟩ := formed
    have fitsThen := Stmt.fits_branch formedThen thenPlain (thenBranch.fits_toTree formedThen)
    have fitsElse := Stmt.fits_branch formedElse elsePlain (elseBranch.fits_toTree formedElse)
    exact ⟨by decide, condition.fits_toTree formedCondition, fitsThen, fitsElse.optional, trivial⟩
  | .loop condition body, formed =>
    ⟨by decide, condition.fits_toTree formed.1,
      Stmt.fits_branch formed.2.2 formed.2.1 (body.fits_toTree formed.2.2), trivial⟩
  | .funDecl decl, formed => by
    have fits := decl.fits_toTree formed
    obtain ⟨name, params, body⟩ := decl
    exact fits.move (by decide)
  | .classDecl _ none methods, formed =>
    ⟨by decide, Token.fits_of_kind formed.1, trivial, FunDecl.allFit_toTree methods formed.2.2,
      trivial⟩
  | .classDecl _ (some _) methods, formed =>
    ⟨by decide, Token.fits_of_kind formed.1, Superclass.fits_toTree formed.2.2.1,
      FunDecl.allFit_toTree methods formed.2.2.2, trivial⟩
  | .ret _ _, formed =>
    ⟨by decide, Token.fits_of_kind formed.1, Expr.fits_optionToTree formed.2.2, trivial⟩
  | .brk _, formed => ⟨by decide, Token.fits_of_kind formed.1, trivial⟩
  | .cont _, formed => ⟨by decide, Token.fits_of_kind formed.1, trivial⟩
  | .bare _, formed => formed.elim
  | .misfit _, formed => formed.elim
termination_by structural s => s

theorem Stmt.allFit_toTree : ∀ ss : List Stmt, Stmt.AllFormed token ss →
    Tree.AllFit (Stmt.listToTree ss) (.node NodeKind.statements)
  | [], _ => trivial
  | s :: rest, formed => ⟨s.fits_toTree formed.1, Stmt.allFit_toTree rest formed.2⟩
termination_by structural ss => ss

theorem FunDecl.fits_toTree : ∀ decl : FunDecl, decl.Formed token →
    decl.toTree.Fits (.node [.funDecl])
  | ⟨_, _, body⟩, formed =>
    ⟨by decide, Token.fits_of_kind formed.1,
      Token.allFit_map_toTree fun param mem => (formed.2.2.1 param mem).1,
      Stmt.allFit_toTree body formed.2.2.2, trivial⟩
termination_by structural decl => decl

theorem FunDecl.allFit_toTree : ∀ decls : List FunDecl, FunDecl.AllFormed token decls →
    Tree.AllFit (FunDecl.listToTree decls) (.node [.funDecl])
  | [], _ => trivial
  | decl :: rest, formed => ⟨decl.fits_toTree formed.1, FunDecl.allFit_toTree rest formed.2⟩
termination_by structural decls => decls

end

/-- A well-formed program has in every slot what it asks for. -/
theorem Program.fits_toTree {p : Program} (formed : Stmt.AllFormed token p.body) :
    p.toTree.Fits (.node [.program]) :=
  ⟨by decide, Stmt.allFit_toTree p.body formed, trivial⟩

end Formed

end Arbor
