import Arbor.Proofs.Program.Formed
import Arbor.Proofs.Token.Spelling
import Mathlib.Logic.Equiv.Basic

/-!
# Renaming a local variable

The variables of a block, and the parameters and variables of a function, can be given other names.
Which occurrences are meant is decided by distances: a reference belongs to a variable if it is called
like it and its distance leads to the scope of the variable.  So renaming is a matter of resolved
trees.  On its way down it keeps a list that says of every scope around the current place, the
innermost first, whether one of its variables is renamed.

A place in a tree is written as the list of the child numbers that lead to it.  The children of a block
and of a function are its statements, those of an `if` statement its branches, that of a loop its body,
and those of a class its methods.

## Main definitions

* `Renaming`: an old name and a new one.
* `Program.renameAt`: a program in which the variable of one scope is renamed.
* `Program.DeclaresAt`: the scope at a place has a variable of a given name.
* `Stmt.Renamed`: one statement is the other with the variables of some scopes renamed.
-/

namespace Arbor

/-- A word that a variable can be called: it has the form of one and is not reserved. -/
structure Token.IsIdentifier (word : String) : Prop where
  form : ∃ first rest, word.toList = first :: rest ∧ Piece.isLetter first = true ∧
    ∀ c ∈ rest, Piece.isWordChar c = true
  free : Token.Kind.ofWord word = .identifier

/-- An old name and a new one. -/
structure Renaming where
  old : String
  new : String
  old_identifier : Token.IsIdentifier old
  new_identifier : Token.IsIdentifier new

theorem Token.IsIdentifier.ne_keyword {word : String} (identifier : Token.IsIdentifier word)
    {kind : Token.Kind} (keyword : kind ∈ Token.Kind.keywords) : kind.name ≠ word :=
  Token.Kind.name_ne_of_identifier identifier.free keyword

namespace Renaming

variable (ρ : Renaming)

/-- A token that is called by the new name if it is marked and was called by the old one. -/
def token (marked : Bool) (t : Token) : Token :=
  if marked = true ∧ t.lexeme = ρ.old then { t with lexeme := ρ.new } else t

/-- The exchange of the two names, in a scope that is marked. -/
def perm (marked : Bool) : Equiv.Perm String :=
  if marked then Equiv.swap ρ.old ρ.new else Equiv.refl String

/-- What is asked of the tokens of a tree: they are spelled like their kinds, and none is called by the
new name. -/
structure Fits (t : Token) : Prop where
  spelled : t.Spelled
  fresh : t.lexeme ≠ ρ.new

variable {ρ}

/-! ### Names and tokens -/

@[simp] theorem perm_false (name : String) : ρ.perm false name = name :=
  rfl

@[simp] theorem perm_perm (marked : Bool) (name : String) :
    ρ.perm marked (ρ.perm marked name) = name := by
  cases marked with
  | false => rfl
  | true => exact Equiv.swap_apply_self ..

/-- The exchange leaves other names alone. -/
theorem perm_of_ne {name : String} (notOld : name ≠ ρ.old) (notNew : name ≠ ρ.new)
    (marked : Bool) : ρ.perm marked name = name := by
  cases marked with
  | false => rfl
  | true => exact Equiv.swap_apply_of_ne_of_ne notOld notNew

/-- A name other than the new one is left alone, or it is the old one and becomes the new one.  The
other direction of the swap concerns the new name, which is excluded here. -/
theorem perm_cases {name : String} (fresh : name ≠ ρ.new) (marked : Bool) :
    ρ.perm marked name = name ∨ name = ρ.old ∧ ρ.perm marked name = ρ.new := by
  cases marked with
  | false => exact .inl rfl
  | true =>
    by_cases old : name = ρ.old
    · rw [old]
      exact .inr ⟨rfl, Equiv.swap_apply_left ..⟩
    · exact .inl (perm_of_ne old fresh true)

theorem this_ne_new : "this" ≠ ρ.new :=
  have keyword : Token.Kind.kwThis ∈ Token.Kind.keywords := by decide
  ρ.new_identifier.ne_keyword keyword

theorem super_ne_new : "super" ≠ ρ.new :=
  have keyword : Token.Kind.kwSuper ∈ Token.Kind.keywords := by decide
  ρ.new_identifier.ne_keyword keyword

theorem perm_this (marked : Bool) : ρ.perm marked "this" = "this" :=
  have keyword : Token.Kind.kwThis ∈ Token.Kind.keywords := by decide
  perm_of_ne (ρ.old_identifier.ne_keyword keyword) this_ne_new marked

theorem perm_super (marked : Bool) : ρ.perm marked "super" = "super" :=
  have keyword : Token.Kind.kwSuper ∈ Token.Kind.keywords := by decide
  perm_of_ne (ρ.old_identifier.ne_keyword keyword) super_ne_new marked

@[simp] theorem token_kind (marked : Bool) (t : Token) : (ρ.token marked t).kind = t.kind := by
  unfold token
  split <;> rfl

@[simp] theorem token_line (marked : Bool) (t : Token) : (ρ.token marked t).line = t.line := by
  unfold token
  split <;> rfl

@[simp] theorem token_false (t : Token) : ρ.token false t = t :=
  if_neg fun both => Bool.false_ne_true both.1

/-- The new name of a token that was not called by it before.  For such tokens replacing the old
name is the same as swapping the two. -/
theorem token_lexeme {t : Token} (fresh : t.lexeme ≠ ρ.new) (marked : Bool) :
    (ρ.token marked t).lexeme = ρ.perm marked t.lexeme := by
  unfold token
  cases marked with
  | false => rw [if_neg fun both => Bool.false_ne_true both.1, perm_false]
  | true =>
    by_cases called : t.lexeme = ρ.old
    · rw [if_pos ⟨rfl, called⟩, called]
      exact (Equiv.swap_apply_left ..).symm
    · rw [if_neg fun both => called both.2, perm_of_ne called fresh]

end Renaming

/-! ### Expressions -/

/-- Whether a distance leads to a scope that is marked. -/
def leadsToMark (marks : List Bool) : Option Nat → Bool
  | some hops => marks.getD hops false
  | none => false

mutual

/-- An expression in which the references to marked scopes are renamed. -/
def Expr.rename (ρ : Renaming) (marks : List Bool) : Expr → Expr
  | .literal value => .literal value
  | .grouping inner => .grouping (inner.rename ρ marks)
  | .var name hops => .var (ρ.token (leadsToMark marks hops) name) hops
  | .assign name value hops =>
    .assign (ρ.token (leadsToMark marks hops) name) (value.rename ρ marks) hops
  | .unary operator right => .unary operator (right.rename ρ marks)
  | .binary left operator right => .binary (left.rename ρ marks) operator (right.rename ρ marks)
  | .logical left operator right => .logical (left.rename ρ marks) operator (right.rename ρ marks)
  | .call callee paren arguments =>
    .call (callee.rename ρ marks) paren (Expr.allRename ρ marks arguments)
  | .getField object name => .getField (object.rename ρ marks) name
  | .setField object name value => .setField (object.rename ρ marks) name (value.rename ρ marks)
  | .this keyword hops => .this keyword hops
  | .super keyword method hops => .super keyword method hops
  | .misfit what => .misfit what

/-- Expressions in which the references to marked scopes are renamed. -/
def Expr.allRename (ρ : Renaming) (marks : List Bool) : List Expr → List Expr
  | [] => []
  | e :: rest => e.rename ρ marks :: Expr.allRename ρ marks rest

end

/-- Whether an expression is a reference to a scope that is marked. -/
def Expr.isMarked (marks : List Bool) : Expr → Bool
  | .var _ hops => leadsToMark marks hops
  | _ => false

/-- A superclass that is renamed if it is held by a variable that is. -/
def Superclass.rename (ρ : Renaming) (marks : List Bool) (parent : Superclass) : Superclass where
  name := ρ.token (parent.value.isMarked marks) parent.name
  value := parent.value.rename ρ marks

/-! ### Statements -/

/-- The way to a place, from a tree that it may be in. -/
abbrev Route := Option (List Nat)

namespace Route

/-- Whether the place has been reached. -/
def isHere : Route → Bool
  | some [] => true
  | _ => false

/-- The way from the first child on. -/
def first : Route → Route
  | some (0 :: way) => some way
  | _ => none

/-- The way from the other children on. -/
def later : Route → Route
  | some ((n + 1) :: way) => some (n :: way)
  | _ => none

end Route

section Rename

variable (ρ : Renaming)

mutual

/-- A statement in which the variable of the scope at a place is renamed. -/
def Stmt.renameAt (route : Route) (marks : List Bool) : Stmt → Stmt
  | .expr expression => .expr (expression.rename ρ marks)
  | .print expression => .print (expression.rename ρ marks)
  | .varDecl name initializer =>
    .varDecl (ρ.token (marks.headD false) name) (initializer.map (Expr.rename ρ marks))
  | .block statements => .block (Stmt.allRenameAt route (route.isHere :: marks) statements)
  | .ifElse condition thenBranch none =>
    .ifElse (condition.rename ρ marks) (thenBranch.renameAt route.first marks) none
  | .ifElse condition thenBranch (some elseBranch) =>
    .ifElse (condition.rename ρ marks) (thenBranch.renameAt route.first marks)
      (some (elseBranch.renameAt route.later.first marks))
  | .loop condition body => .loop (condition.rename ρ marks) (body.renameAt route.first marks)
  | .funDecl decl => .funDecl (decl.renameAt route marks)
  | .classDecl name none methods =>
    .classDecl name none (FunDecl.allRenameAt route (false :: marks) methods)
  | .classDecl name (some parent) methods =>
    .classDecl name (some (parent.rename ρ marks))
      (FunDecl.allRenameAt route (false :: false :: marks) methods)
  | .ret keyword value => .ret keyword (value.map (Expr.rename ρ marks))
  | .brk keyword => .brk keyword
  | .cont keyword => .cont keyword
  | .bare expression => .bare (expression.rename ρ marks)
  | .misfit what => .misfit what

/-- Statements in one of which the variable of the scope at a place is renamed. -/
def Stmt.allRenameAt (route : Route) (marks : List Bool) : List Stmt → List Stmt
  | [] => []
  | s :: rest => s.renameAt route.first marks :: Stmt.allRenameAt route.later marks rest

/-- A function in which the variable of the scope at a place is renamed. -/
def FunDecl.renameAt (route : Route) (marks : List Bool) : FunDecl → FunDecl
  | ⟨name, params, body⟩ =>
    ⟨name, params.map (ρ.token route.isHere), Stmt.allRenameAt route (route.isHere :: marks) body⟩

/-- Functions in one of which the variable of the scope at a place is renamed. -/
def FunDecl.allRenameAt (route : Route) (marks : List Bool) : List FunDecl → List FunDecl
  | [] => []
  | decl :: rest => decl.renameAt route.first marks :: FunDecl.allRenameAt route.later marks rest

end

/-- A program in which the variable of the scope at a place is renamed, where it is declared and
wherever it is referred to. -/
def Program.renameAt (way : List Nat) (p : Program) : Program :=
  ⟨Stmt.allRenameAt ρ (some way) [] p.body⟩

end Rename

/-! ### Variables of scopes -/

/-- The scope of some parameters and statements has a variable of a given name: a parameter, or one
that is declared by a `var` among the statements. -/
def HasVariable (name : String) (params : List Token) (body : List Stmt) : Prop :=
  (∃ param ∈ params, param.lexeme = name) ∨
    ∃ declared initializer, .varDecl declared initializer ∈ body ∧ declared.lexeme = name

mutual

/-- There is a block or a function at a place that has a variable of a given name. -/
def Stmt.DeclaresAt (name : String) : List Nat → Stmt → Prop
  | [], .block statements => HasVariable name [] statements
  | n :: way, .block statements => Stmt.OneDeclaresAt name n way statements
  | 0 :: way, .ifElse _ thenBranch _ => thenBranch.DeclaresAt name way
  | 1 :: way, .ifElse _ _ (some elseBranch) => elseBranch.DeclaresAt name way
  | 0 :: way, .loop _ body => body.DeclaresAt name way
  | way, .funDecl decl => decl.DeclaresAt name way
  | n :: way, .classDecl _ _ methods => FunDecl.OneDeclaresAt name n way methods
  | _, _ => False

/-- So has one of some statements, at a place in it. -/
def Stmt.OneDeclaresAt (name : String) : Nat → List Nat → List Stmt → Prop
  | _, _, [] => False
  | 0, way, s :: _ => s.DeclaresAt name way
  | n + 1, way, _ :: rest => Stmt.OneDeclaresAt name n way rest

/-- So has a function, at a place in it. -/
def FunDecl.DeclaresAt (name : String) : List Nat → FunDecl → Prop
  | [], ⟨_, params, body⟩ => HasVariable name params body
  | n :: way, ⟨_, _, body⟩ => Stmt.OneDeclaresAt name n way body

/-- So has one of some functions, at a place in it. -/
def FunDecl.OneDeclaresAt (name : String) : Nat → List Nat → List FunDecl → Prop
  | _, _, [] => False
  | 0, way, decl :: _ => decl.DeclaresAt name way
  | n + 1, way, _ :: rest => FunDecl.OneDeclaresAt name n way rest

end

/-- There is a block or a function at a place in a program that has a variable of a given name. -/
def Program.DeclaresAt (name : String) (p : Program) : List Nat → Prop
  | [] => False
  | n :: way => Stmt.OneDeclaresAt name n way p.body

section Declares

variable {token : Token → Prop} {name : String}

/-- A variable of a function is a parameter or a declared name, so a token of the program spells
it. -/
theorem HasVariable.exists_token {params : List Token} {body : List Stmt}
    (has : HasVariable name params body)
    (each : ∀ param ∈ params, param.kind = .identifier ∧ token param)
    (formed : Stmt.AllFormed token body) :
    ∃ t, t.kind = .identifier ∧ token t ∧ t.lexeme = name := by
  rcases has with ⟨param, mem, called⟩ | ⟨declared, initializer, mem, called⟩
  · exact ⟨param, (each param mem).1, (each param mem).2, called⟩
  · have own := Stmt.allFormed_iff.mp formed _ mem
    exact ⟨declared, own.1, own.2.1, called⟩

mutual

/-- What a part of a well-formed statement declares is spelled by some identifier of the text.  The
induction follows the way to the scope of the declaration. -/
theorem Stmt.DeclaresAt.exists_token : ∀ (st : Stmt) {way : List Nat}, st.Formed token →
    st.DeclaresAt name way → ∃ t, t.kind = .identifier ∧ token t ∧ t.lexeme = name
  | .block statements, way, formed, declares => by
    cases way with
    | nil => exact HasVariable.exists_token declares nofun formed
    | cons n way => exact Stmt.OneDeclaresAt.exists_token statements formed declares
  | .ifElse _ thenBranch none, way, formed, declares => by
    match way with
    | 0 :: way => exact Stmt.DeclaresAt.exists_token thenBranch formed.2.2 declares
    | [] | 1 :: _ | (_ + 2) :: _ => exact False.elim declares
  | .ifElse _ thenBranch (some elseBranch), way, formed, declares => by
    obtain ⟨-, -, formedThen, -, formedElse⟩ := formed
    match way with
    | 0 :: way => exact Stmt.DeclaresAt.exists_token thenBranch formedThen declares
    | 1 :: way => exact Stmt.DeclaresAt.exists_token elseBranch formedElse declares
    | [] | (_ + 2) :: _ => exact False.elim declares
  | .loop _ body, way, formed, declares => by
    match way with
    | 0 :: way => exact Stmt.DeclaresAt.exists_token body formed.2.2 declares
    | [] | (_ + 1) :: _ => exact False.elim declares
  | .funDecl decl, way, formed, declares => by
    have inside : decl.DeclaresAt name way := by cases way <;> exact declares
    exact FunDecl.DeclaresAt.exists_token decl formed inside
  | .classDecl _ none methods, way, formed, declares => by
    cases way with
    | nil => exact False.elim declares
    | cons n way => exact FunDecl.OneDeclaresAt.exists_token methods formed.2.2 declares
  | .classDecl _ (some _) methods, way, formed, declares => by
    cases way with
    | nil => exact False.elim declares
    | cons n way => exact FunDecl.OneDeclaresAt.exists_token methods formed.2.2.2 declares
  | .expr _, way, _, declares | .print _, way, _, declares | .varDecl _ _, way, _, declares
  | .ret _ _, way, _, declares | .brk _, way, _, declares | .cont _, way, _, declares
  | .bare _, way, _, declares | .misfit _, way, _, declares => by
    simp [Stmt.DeclaresAt] at declares
termination_by structural st => st

/-- The way leads to one of the statements, and a token in that one spells the name. -/
theorem Stmt.OneDeclaresAt.exists_token : ∀ (sts : List Stmt) {n : Nat} {way : List Nat},
    Stmt.AllFormed token sts → Stmt.OneDeclaresAt name n way sts →
      ∃ t, t.kind = .identifier ∧ token t ∧ t.lexeme = name
  | [], _, _, _, declares => by
    simp [Stmt.OneDeclaresAt] at declares
  | st :: rest, n, way, formed, declares => by
    cases n with
    | zero => exact Stmt.DeclaresAt.exists_token st formed.1 declares
    | succ n => exact Stmt.OneDeclaresAt.exists_token rest formed.2 declares
termination_by structural sts => sts

theorem FunDecl.DeclaresAt.exists_token : ∀ (decl : FunDecl) {way : List Nat}, decl.Formed token →
    decl.DeclaresAt name way → ∃ t, t.kind = .identifier ∧ token t ∧ t.lexeme = name
  | ⟨_, _, body⟩, way, formed, declares => by
    cases way with
    | nil => exact HasVariable.exists_token declares formed.2.2.1 formed.2.2.2
    | cons n way => exact Stmt.OneDeclaresAt.exists_token body formed.2.2.2 declares
termination_by structural decl => decl

/-- The way leads to one of the methods, and a token in that one spells the name. -/
theorem FunDecl.OneDeclaresAt.exists_token : ∀ (decls : List FunDecl) {n : Nat} {way : List Nat},
    FunDecl.AllFormed token decls → FunDecl.OneDeclaresAt name n way decls →
      ∃ t, t.kind = .identifier ∧ token t ∧ t.lexeme = name
  | [], _, _, _, declares => by
    simp [FunDecl.OneDeclaresAt] at declares
  | decl :: rest, n, way, formed, declares => by
    cases n with
    | zero => exact FunDecl.DeclaresAt.exists_token decl formed.1 declares
    | succ n => exact FunDecl.OneDeclaresAt.exists_token rest formed.2 declares
termination_by structural decls => decls

end

/-- The variable at a place is called by one of the identifiers of the program. -/
theorem Program.DeclaresAt.exists_token {p : Program} {way : List Nat}
    (declares : p.DeclaresAt name way) (formed : Stmt.AllFormed token p.body) :
    ∃ t, t.kind = .identifier ∧ token t ∧ t.lexeme = name := by
  cases way with
  | nil => exact False.elim declares
  | cons n way => exact Stmt.OneDeclaresAt.exists_token p.body formed declares

end Declares

/-! ### Trees that are the same but for the variables of some scopes -/

section Renamed

variable (ρ : Renaming)

/-- A function or a class keeps its name: it is none that is renamed. -/
def Renaming.Keeps (marked : Bool) (name : Token) : Prop :=
  marked = true → name.lexeme ≠ ρ.old

mutual

/-- One statement is the other with the variables of some scopes renamed. -/
def Stmt.Renamed (marks : List Bool) : Stmt → Stmt → Prop
  | .expr expression, s' => s' = .expr (expression.rename ρ marks)
  | .print expression, s' => s' = .print (expression.rename ρ marks)
  | .varDecl name initializer, s' =>
    s' = .varDecl (ρ.token (marks.headD false) name) (initializer.map (Expr.rename ρ marks))
  | .block statements, s' =>
    ∃ here statements', s' = .block statements' ∧
      Stmt.AllRenamed (here :: marks) statements statements'
  | .ifElse condition thenBranch none, s' =>
    ∃ thenBranch', s' = .ifElse (condition.rename ρ marks) thenBranch' none ∧
      thenBranch.Renamed marks thenBranch'
  | .ifElse condition thenBranch (some elseBranch), s' =>
    ∃ thenBranch' elseBranch',
      s' = .ifElse (condition.rename ρ marks) thenBranch' (some elseBranch') ∧
      thenBranch.Renamed marks thenBranch' ∧ elseBranch.Renamed marks elseBranch'
  | .loop condition body, s' =>
    ∃ body', s' = .loop (condition.rename ρ marks) body' ∧ body.Renamed marks body'
  | .funDecl decl, s' =>
    ∃ decl', s' = .funDecl decl' ∧ ρ.Keeps (marks.headD false) decl.name ∧ decl.Renamed marks decl'
  | .classDecl name none methods, s' =>
    ∃ methods', s' = .classDecl name none methods' ∧ ρ.Keeps (marks.headD false) name ∧
      FunDecl.AllRenamed (false :: marks) methods methods'
  | .classDecl name (some parent) methods, s' =>
    ∃ methods', s' = .classDecl name (some (parent.rename ρ marks)) methods' ∧
      ρ.Keeps (marks.headD false) name ∧
      FunDecl.AllRenamed (false :: false :: marks) methods methods'
  | .ret keyword value, s' => s' = .ret keyword (value.map (Expr.rename ρ marks))
  | .brk keyword, s' => s' = .brk keyword
  | .cont keyword, s' => s' = .cont keyword
  | .bare expression, s' => s' = .bare (expression.rename ρ marks)
  | .misfit what, s' => s' = .misfit what
termination_by structural s => s

/-- So are lists of statements, one by one. -/
def Stmt.AllRenamed (marks : List Bool) : List Stmt → List Stmt → Prop
  | [], ss' => ss' = []
  | s :: rest, ss' =>
    ∃ s' rest', ss' = s' :: rest' ∧ s.Renamed marks s' ∧ Stmt.AllRenamed marks rest rest'
termination_by structural ss => ss

/-- So are functions, which keep their names. -/
def FunDecl.Renamed (marks : List Bool) : FunDecl → FunDecl → Prop
  | ⟨name, params, body⟩, decl' =>
    ∃ here body', decl' = ⟨name, params.map (ρ.token here), body'⟩ ∧
      Stmt.AllRenamed (here :: marks) body body'
termination_by structural decl => decl

/-- So are lists of functions, one by one. -/
def FunDecl.AllRenamed (marks : List Bool) : List FunDecl → List FunDecl → Prop
  | [], decls' => decls' = []
  | decl :: rest, decls' =>
    ∃ decl' rest', decls' = decl' :: rest' ∧ decl.Renamed marks decl' ∧
      FunDecl.AllRenamed marks rest rest'
termination_by structural decls => decls

end

variable {ρ}

/-- What keeps its name is called by it in its scope, whether or not a variable is renamed there. -/
theorem Renaming.Keeps.perm {marked : Bool} {name : Token} (keeps : ρ.Keeps marked name)
    (fresh : name.lexeme ≠ ρ.new) : ρ.perm marked name.lexeme = name.lexeme := by
  rcases Renaming.perm_cases fresh marked with same | ⟨old, -⟩
  · exact same
  · cases marked with
    | false => rfl
    | true => exact absurd old (keeps rfl)

/-- A renamed function keeps its name and takes as many arguments. -/
theorem FunDecl.Renamed.same {marks : List Bool} {decl decl' : FunDecl}
    (renamed : decl.Renamed ρ marks decl') :
    decl'.name = decl.name ∧ decl'.params.length = decl.params.length := by
  obtain ⟨name, params, body⟩ := decl
  obtain ⟨here, body', rfl, -⟩ := renamed
  exact ⟨rfl, List.length_map _⟩

/-- The parameters and the body of a renamed function, in whose scope a variable is renamed or none
is. -/
theorem FunDecl.Renamed.inside {marks : List Bool} {decl decl' : FunDecl}
    (renamed : decl.Renamed ρ marks decl') :
    ∃ here, decl'.params = decl.params.map (ρ.token here) ∧
      Stmt.AllRenamed ρ (here :: marks) decl.body decl'.body := by
  obtain ⟨name, params, body⟩ := decl
  obtain ⟨here, body', rfl, renamed⟩ := renamed
  exact ⟨here, rfl, renamed⟩

end Renamed
end Arbor
