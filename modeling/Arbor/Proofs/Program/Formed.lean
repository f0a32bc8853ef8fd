import Arbor.Program

/-!
# Well-formed trees

The node types of this library are wider than the language: a tree from storage may hold misfits,
a declaration may stand where only a statement may, an operator may be any token.  `Formed` says
that a tree is one a program text can mean: every slot holds a child of its kind, every operator
is one of its node's operators, and declarations stand only in lists of statements.

The predicate takes a condition on tokens that every token of the tree has to satisfy, so that
facts about how tokens are spelled travel from the scanner to the tree.

## Main definitions

* `Expr.Formed`, `Stmt.Formed`, `FunDecl.Formed`: well-formed trees.
* `Stmt.introduces`: the names a statement binds in the scope it stands in.
-/

namespace Arbor

/-- The operators of `Expr.binary`. -/
def Token.Kind.isBinary : Token.Kind → Bool
  | .bangEqual | .equalEqual | .greater | .greaterEqual | .less | .lessEqual | .minus | .plus
  | .slash | .star => true
  | _ => false

section Formed

variable (token : Token → Prop)

mutual

/-- Whether an expression is well-formed and all its tokens satisfy `token`. -/
def Expr.Formed : Expr → Prop
  | .literal _ => True
  | .grouping inner => inner.Formed
  | .var name _ => name.kind = .identifier ∧ token name
  | .assign name value _ => name.kind = .identifier ∧ token name ∧ value.Formed
  | .unary operator right =>
    (operator.kind = .bang ∨ operator.kind = .minus) ∧ token operator ∧ right.Formed
  | .binary left operator right =>
    operator.kind.isBinary ∧ token operator ∧ left.Formed ∧ right.Formed
  | .logical left operator right =>
    (operator.kind = .kwAnd ∨ operator.kind = .kwOr) ∧ token operator ∧ left.Formed ∧ right.Formed
  | .call callee paren arguments =>
    paren.kind = .rightParen ∧ token paren ∧ callee.Formed ∧ Expr.AllFormed arguments
  | .getField object name => name.kind = .identifier ∧ token name ∧ object.Formed
  | .setField object name value =>
    name.kind = .identifier ∧ token name ∧ object.Formed ∧ value.Formed
  | .this keyword _ => keyword.kind = .kwThis ∧ token keyword
  | .super keyword method _ =>
    keyword.kind = .kwSuper ∧ token keyword ∧ method.kind = .identifier ∧ token method
  | .misfit _ => False

/-- Whether all expressions of a list are well-formed. -/
def Expr.AllFormed : List Expr → Prop
  | [] => True
  | e :: rest => e.Formed ∧ Expr.AllFormed rest

end

/-- Whether an expression that may be left out is well-formed. -/
def Expr.OptionFormed : Option Expr → Prop
  | none => True
  | some e => e.Formed token

/-- Whether a superclass is well-formed: it is a name, and it is blamed by that name. -/
def Superclass.Formed (parent : Superclass) : Prop :=
  parent.name.kind = .identifier ∧ token parent.name ∧ ∃ hops, parent.value = .var parent.name hops

/-- Whether a statement is a declaration, which may stand only in a list of statements. -/
def Stmt.isDeclaration : Stmt → Bool
  | .varDecl _ _ | .funDecl _ | .classDecl _ _ _ => true
  | _ => false

mutual

/-- Whether a statement is well-formed and all its tokens satisfy `token`. -/
def Stmt.Formed : Stmt → Prop
  | .expr expression | .print expression => expression.Formed token
  | .varDecl name initializer =>
    name.kind = .identifier ∧ token name ∧ Expr.OptionFormed token initializer
  | .block statements => Stmt.AllFormed statements
  | .ifElse condition thenBranch none =>
    condition.Formed token ∧ thenBranch.isDeclaration = false ∧ thenBranch.Formed
  | .ifElse condition thenBranch (some elseBranch) =>
    condition.Formed token ∧ thenBranch.isDeclaration = false ∧ thenBranch.Formed ∧
      elseBranch.isDeclaration = false ∧ elseBranch.Formed
  | .loop condition body => condition.Formed token ∧ body.isDeclaration = false ∧ body.Formed
  | .funDecl decl => decl.Formed
  | .classDecl name none methods => name.kind = .identifier ∧ token name ∧ FunDecl.AllFormed methods
  | .classDecl name (some parent) methods =>
    name.kind = .identifier ∧ token name ∧ parent.Formed token ∧ FunDecl.AllFormed methods
  | .ret keyword value => keyword.kind = .kwReturn ∧ token keyword ∧ Expr.OptionFormed token value
  | .brk keyword => keyword.kind = .kwBreak ∧ token keyword
  | .cont keyword => keyword.kind = .kwContinue ∧ token keyword
  | .bare _ => False
  | .misfit _ => False

/-- Whether all statements of a list are well-formed. -/
def Stmt.AllFormed : List Stmt → Prop
  | [] => True
  | s :: rest => s.Formed ∧ Stmt.AllFormed rest

/-- Whether a function is well-formed and all its tokens satisfy `token`. -/
def FunDecl.Formed : FunDecl → Prop
  | ⟨name, params, body⟩ =>
    name.kind = .identifier ∧ token name ∧
      (∀ param ∈ params, param.kind = .identifier ∧ token param) ∧ Stmt.AllFormed body

/-- Whether all functions of a list are well-formed. -/
def FunDecl.AllFormed : List FunDecl → Prop
  | [] => True
  | decl :: rest => decl.Formed ∧ FunDecl.AllFormed rest

end

variable {token}

/-- A list of expressions is well-formed if each of them is. -/
theorem Expr.allFormed_iff {es : List Expr} :
    Expr.AllFormed token es ↔ ∀ e ∈ es, e.Formed token := by
  induction es with
  | nil => simp [Expr.AllFormed]
  | cons e rest ih => simp [Expr.AllFormed, ih]

/-- So is a list of statements. -/
theorem Stmt.allFormed_iff {ss : List Stmt} :
    Stmt.AllFormed token ss ↔ ∀ s ∈ ss, s.Formed token := by
  induction ss with
  | nil => simp [Stmt.AllFormed]
  | cons s rest ih => simp [Stmt.AllFormed, ih]

theorem FunDecl.allFormed_iff {decls : List FunDecl} :
    FunDecl.AllFormed token decls ↔ ∀ decl ∈ decls, decl.Formed token := by
  induction decls with
  | nil => simp [FunDecl.AllFormed]
  | cons decl rest ih => simp [FunDecl.AllFormed, ih]

theorem FunDecl.Formed.name {decl : FunDecl} (formed : decl.Formed token) :
    decl.name.kind = .identifier ∧ token decl.name := by
  obtain ⟨name, params, body⟩ := decl
  exact ⟨formed.1, formed.2.1⟩

/-- The parameters of a well-formed function are identifiers, spelled as the condition on tokens
asks. -/
theorem FunDecl.Formed.params {decl : FunDecl} (formed : decl.Formed token) :
    ∀ param ∈ decl.params, param.kind = .identifier ∧ token param := by
  obtain ⟨name, params, body⟩ := decl
  exact formed.2.2.1

/-- The body of a well-formed function is well-formed. -/
theorem FunDecl.Formed.body {decl : FunDecl} (formed : decl.Formed token) :
    Stmt.AllFormed token decl.body := by
  obtain ⟨name, params, body⟩ := decl
  exact formed.2.2.2

end Formed

/-- The names a statement binds in the scope it stands in. -/
def Stmt.introduces : Stmt → List String
  | .varDecl name _ => [name.lexeme]
  | .funDecl decl => [decl.name.lexeme]
  | .classDecl name _ _ => [name.lexeme]
  | .ifElse _ thenBranch none => thenBranch.introduces
  | .ifElse _ thenBranch (some elseBranch) => thenBranch.introduces ++ elseBranch.introduces
  | .loop _ body => body.introduces
  | _ => []

/-- In a well-formed tree only declarations bind names in the scope they stand in.  A branch or a
body would if it were a declaration itself, which the grammar excludes. -/
theorem Stmt.introduces_eq_nil {token : Token → Prop} {s : Stmt} (formed : s.Formed token)
    (plain : s.isDeclaration = false) : s.introduces = [] := by
  fun_induction Stmt.introduces s with
  | case1 | case2 | case3 => simp [Stmt.isDeclaration] at plain
  | case4 condition thenBranch ih =>
    simp only [Stmt.Formed] at formed
    exact ih formed.2.2 formed.2.1
  | case5 condition thenBranch elseBranch ihThen ihElse =>
    simp only [Stmt.Formed] at formed
    obtain ⟨-, thenPlain, thenFormed, elsePlain, elseFormed⟩ := formed
    rw [ihThen thenFormed thenPlain, ihElse elseFormed elsePlain]
    rfl
  | case6 condition body ih =>
    simp only [Stmt.Formed] at formed
    exact ih formed.2.2 formed.2.1
  | case7 => rfl

end Arbor
