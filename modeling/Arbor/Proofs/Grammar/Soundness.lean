import Arbor.Proofs.Grammar.Explains

/-!
# What parsers read is derived

A parser that reports nothing has taken exactly the tokens of a phrase off the front, and what it
returns is the tree of a derivation of these tokens.

## Main statements

* `ExplainsExprs.all`, `ExplainsStmts.all`: the rules for expressions and for statements.
* `Program.derives_of_silent`: a program read without a report is derived.
-/

namespace Arbor
namespace Grammar

open Stateful

/-! ### Expressions -/

/-- Operators of a level, each taking what came before as its left operand.  So a chain of them is
derived from the left, as the grammar has it. -/
theorem explains_operatorTail {level : Level} {operand : Parser Expr}
    (inner : Explains operand fun used _ e => level.operand.Derives used e) : ∀ fuel left,
    Explains (operatorTail level operand fuel left) fun used _ e => ∀ before,
      (Phrase.operators level).Derives before left →
        (Phrase.operators level).Derives (before ++ used) e
  | 0, left => .pure fun _ before derives => by rwa [List.append_nil]
  | fuel + 1, left => by
    refine .acceptIf (fun operator => ?_) (.pure fun _ _ before derives => by rwa [List.append_nil])
    refine inner.bind fun right => (explains_operatorTail inner fuel _).mono ?_
    intro used _ e derives tokens second accepted before first
    have whole := Phrase.Derives.operation first (Level.accepts_iff.mp accepted) second
    rw [Level.node_eq_build] at whole
    simpa using derives _ whole

/-- Calls and property accesses on what came before.  Each round puts one of them around the tree so
far, which is how the grammar derives a chain of them. -/
theorem explains_callTail {arguments : Expr → Parser Expr}
    (inner : ∀ callee, Explains (arguments callee) fun used _ e => ∃ items paren tokens,
      Lists Phrase.assignment.Derives 255 tokens items ∧ paren.kind = .rightParen ∧
        used = tokens ++ [paren] ∧ e = .call callee paren items) : ∀ fuel left,
    Explains (callTail arguments fuel left) fun used _ e => ∀ before,
      Phrase.called.Derives before left → Phrase.called.Derives (before ++ used) e
  | 0, left => .pure fun _ before derives => by rwa [List.append_nil]
  | fuel + 1, left => by
    refine .accept (fun opening => ?_) (.accept (fun dot => ?_) ?_)
    · refine (inner left).bind fun e => (explains_callTail inner fuel e).mono ?_
      rintro used _ e' derives _ ⟨_, paren, tokens, ⟨items, rfl, each, separated, few⟩, isParen,
        rfl, rfl⟩ isOpening before left
      simpa using derives _ (.call left isOpening few each separated isParen)
    · refine .expect fun name => (explains_callTail inner fuel _).mono ?_
      intro used _ e derives isName isDot _ before left
      simpa using derives _ (.property left isDot isName)
    · exact .pure fun _ _ _ before derives => by rwa [List.append_nil]

/-- What can be assigned to, and the assignment to it.  The target has been read as an expression,
whose derivation gives its tokens back. -/
theorem explains_assignment {target value : Expr} {equals : Token} :
    Explains (assignment target equals value) fun used _ e => ∀ tokens tokens',
      (Phrase.operators .or).Derives tokens target → equals.kind = .equal →
        Phrase.assignment.Derives tokens' value →
          Phrase.assignment.Derives (tokens ++ equals :: tokens') e ∧ used = [] := by
  unfold assignment
  split
  · refine .pure fun _ tokens tokens' left isEquals right => ⟨?_, rfl⟩
    obtain ⟨rfl, isName⟩ := left.of_var
    exact .assign isName isEquals right
  · refine .pure fun _ tokens tokens' left isEquals right => ⟨?_, rfl⟩
    obtain ⟨used, dot, rfl, object, isDot, isName⟩ := left.of_getField
    simpa using Phrase.Derives.set object isDot isName isEquals right
  -- any other target is reported, and the value is dropped
  · exact (explains_report _ _).bind fun _ => .pure fun _ _ impossible => impossible.elim

/-- A primary expression that was read without a report is derived: by its one token, or from what
stands in the parentheses. -/
theorem explains_primaryWith {inner : Parser Expr}
    (derived : Explains inner fun used _ e => Phrase.assignment.Derives used e) :
    Explains (primaryWith inner) fun used _ e => Phrase.primary.Derives used e := by
  refine .peek fun token => ?_
  split
  · next is => exact .taking is nofun (.pure fun _ => .false is)
  · next is => exact .taking is nofun (.pure fun _ => .true is)
  · next is => exact .taking is nofun (.pure fun _ => .nil is)
  · next is => exact .taking is nofun (.pure fun _ => .number is)
  · next is => exact .taking is nofun (.pure fun _ => .string is)
  · next is =>
    refine .taking is nofun (.expect fun dot => .expect fun method => .pure ?_)
    exact fun _ isName isDot => .super is isDot isName
  · next is => exact .taking is nofun (.pure fun _ => .this is)
  · next is => exact .taking is nofun (.pure fun _ => .var is)
  · next is =>
    refine .taking is nofun (derived.bind fun e => .expect fun closing => .pure ?_)
    exact fun _ isClosing tokens inside => .grouping is inside isClosing
  · exact explains_failExpecting _

/-- What the rules for expressions take with a given room. -/
structure ExplainsExprs (room : Nat) : Prop where
  expression : Explains (expression room) fun used _ e => Phrase.assignment.Derives used e
  assigned : Explains (assigned room) fun used _ e => Phrase.assignment.Derives used e
  operators : ∀ level,
    Explains (operators room level) fun used _ e => (Phrase.operators level).Derives used e
  prefixed : Explains (prefixed room) fun used _ e => Phrase.prefixed.Derives used e
  called : Explains (called room) fun used _ e => Phrase.called.Derives used e
  arguments : ∀ callee, Explains (arguments room callee) fun used _ e => ∃ items paren tokens,
    Lists Phrase.assignment.Derives 255 tokens items ∧ paren.kind = .rightParen ∧
      used = tokens ++ [paren] ∧ e = .call callee paren items
  primary : Explains (primary room) fun used _ e => Phrase.primary.Derives used e

namespace ExplainsExprs

variable {room : Nat}

/-- An operand of a level is a phrase of the next tighter level, or one with prefix operators at the
tightest. -/
theorem operand (exprs : ExplainsExprs room) (level : Level) :
    Explains (level.operandParser room) fun used _ e => level.operand.Derives used e := by
  cases level with
  | factor => exact exprs.prefixed
  | _ => exact exprs.operators _

/-- An assignment is derived if nothing was reported, since then the left side could be assigned
to. -/
theorem assigned_succ (exprs : ExplainsExprs room) :
    Explains (Grammar.assigned (room + 1)) fun used _ e => Phrase.assignment.Derives used e := by
  refine (exprs.operators .or).bind fun target => .accept (fun equals => ?_) (.pure ?_)
  · refine exprs.assigned.bind fun value => explains_assignment.mono ?_
    intro used _ e derives tokens' right isEquals tokens left
    obtain ⟨whole, rfl⟩ := derives tokens tokens' left isEquals right
    simpa using whole
  · intro _ _ tokens left
    rw [List.append_nil]
    exact .operators left

/-- A chain of operators is derived from the left, in the order in which its loop took them. -/
theorem operators_succ (exprs : ExplainsExprs room) (level : Level) :
    Explains (Grammar.operators (room + 1) level) fun used _ e =>
      (Phrase.operators level).Derives used e := by
  refine (exprs.operand level).bind fun first => ?_
  -- the bound is read off the state, so the tail is looked at from here on
  intro s ready
  refine .congr ((explains_operatorTail (exprs.operand level) s.bound first s ready).mono ?_) rfl
  exact fun used _ e _ derives tokens inner => derives tokens (.operand inner)

/-- Prefix operators are derived one inside the other, down to a call without any.  Each takes a
level, and the induction is on these. -/
theorem prefixed_succ (exprs : ExplainsExprs room) :
    Explains (Grammar.prefixed (room + 1)) fun used _ e => Phrase.prefixed.Derives used e := by
  refine .acceptIf (fun operator => exprs.prefixed.bind fun right => .pure ?_) ?_
  · intro _ tokens inner isOperator
    rw [List.append_nil]
    refine .unary ?_ inner
    unfold isPrefixOperator at isOperator
    split at isOperator
    · next is => exact .inl is
    · next is => exact .inr is
    · cases isOperator
  · exact exprs.called.mono fun used _ e inner _ => .called inner

/-- Calls and property accesses are derived from the left as well. -/
theorem called_succ (exprs : ExplainsExprs room) :
    Explains (Grammar.called (room + 1)) fun used _ e => Phrase.called.Derives used e := by
  refine exprs.primary.bind fun first => ?_
  intro s ready
  refine .congr ((explains_callTail exprs.arguments s.bound first s ready).mono ?_) rfl
  exact fun used _ e _ derives tokens inner => derives tokens (.primary inner)

/-- The arguments of a call are a list of at most 255 expressions: a longer one is read too, but not
without a report. -/
theorem arguments_succ (exprs : ExplainsExprs room) (callee : Expr) :
    Explains (Grammar.arguments (room + 1) callee) fun used _ e => ∃ items paren tokens,
      Lists Phrase.assignment.Derives 255 tokens items ∧ paren.kind = .rightParen ∧
        used = tokens ++ [paren] ∧ e = .call callee paren items := by
  have list : Explains (listUpToParen "arguments" (Grammar.expression room)) _ :=
    explains_listUpToParen exprs.expression fun used e derives => derives.begins.length_pos
  refine list.bind fun items => .expect fun paren => .pure ?_
  exact fun _ isParen tokens listed => ⟨items, paren, tokens, listed, isParen, rfl, rfl⟩

/-- One level more, for all rules of expressions at once. -/
theorem succ (exprs : ExplainsExprs room) : ExplainsExprs (room + 1) where
  expression := exprs.assigned
  assigned := exprs.assigned_succ
  operators := exprs.operators_succ
  prefixed := exprs.prefixed_succ
  called := exprs.called_succ
  arguments := exprs.arguments_succ
  primary := explains_primaryWith exprs.expression

/-- What the rules of expressions read is derived, at every room. -/
theorem all : ∀ room, ExplainsExprs room
  | 0 => ⟨.tooDeep, .tooDeep, fun _ => .tooDeep, .tooDeep, .tooDeep, fun _ => .tooDeep, .tooDeep⟩
  | room + 1 => (all room).succ

end ExplainsExprs

/-! ### Statements -/

/-- A variable declaration is derived once its keyword is put in front of what the rule has read.
The keyword was taken before, by the rule for declarations. -/
theorem explains_varDecl : ∀ room, Explains (varDecl room) fun used _ st =>
    ∀ keyword, keyword.kind = .kwVar → DerivesVarDecl (keyword :: used) st
  | 0 => .tooDeep
  | room + 1 => by
    refine .expect fun name => .accept (fun equals => ?_) ?_
    · refine (ExplainsExprs.all room).expression.there.bind fun e? => .expect fun semicolon => ?_
      refine .pure ?_
      rintro _ ends tokens ⟨value, rfl, inner⟩ isEquals isName keyword is
      exact .initialized is isName isEquals inner ends
    · refine .expect fun semicolon => .pure ?_
      exact fun _ ends _ isName keyword is => .plain is isName ends

/-- An expression statement is an expression and its semicolon. -/
theorem explains_exprStmt : ∀ room, Explains (exprStmt room) fun used _ st =>
    DerivesExprStmt used st
  | 0 => .tooDeep
  | room + 1 => by
    refine (ExplainsExprs.all room).expression.bind fun e => .expect fun semicolon => .pure ?_
    exact fun _ ends tokens inner => .intro inner ends

/-- So is a print statement behind its keyword. -/
theorem explains_printStmt : ∀ room, Explains (printStmt room) fun used _ st =>
    ∀ keyword, keyword.kind = .kwPrint → (Clause.statement false).Derives (keyword :: used) st
  | 0 => .tooDeep
  | room + 1 => by
    refine (ExplainsExprs.all room).expression.bind fun e => .expect fun semicolon => .pure ?_
    exact fun _ ends tokens inner keyword is => .printStmt is inner ends

/-- An expression that may be left out is derived from no tokens where it is.  It is left out if the
token that ends it comes at once. -/
theorem explains_optionalUpTo (kind : Token.Kind) (room : Nat) :
    Explains (optionalUpTo kind room) fun used _ e? => DerivesOptional used e? := by
  have there : Explains (some <$> expression room) fun used _ e? => DerivesOptional used e? := by
    refine (ExplainsExprs.all room).expression.there.mono ?_
    rintro used _ _ ⟨e, rfl, inner⟩
    exact .some inner
  intro s ready
  refine .congr ?_ (run_optionalUpTo kind room s)
  split
  · exact Explains.pure (fun _ => .none) s ready
  · exact there s ready

/-- A return statement is derived together with its keyword, which is read before and is part of the
tree. -/
theorem explains_returnStmt {keyword : Token} (is : keyword.kind = .kwReturn) : ∀ room,
    Explains (returnStmt keyword room) fun used _ st =>
      (Clause.statement false).Derives (keyword :: used) st
  | 0 => .tooDeep
  | room + 1 => by
    have whole : Explains (optionalUpTo .semicolon room >>= fun value =>
          expect .semicolon "';' after return value" >>= fun _ => pure (Stmt.ret keyword value))
        fun used _ st => (Clause.statement false).Derives (keyword :: used) st := by
      refine (explains_optionalUpTo _ room).bind fun value => .expect fun semicolon => .pure ?_
      exact fun _ ends used inner => .returnStmt is inner ends
    intro s ready
    exact .congr (whole s ready) (run_returnStmt keyword room s)

/-- The first clause of a `for` loop is one of the three that the grammar has for it. -/
theorem explains_forInitializer (room : Nat) :
    Explains (forInitializer room) fun used _ st? => DerivesInitializer used st? := by
  refine .accept (fun semicolon => .pure fun _ is => .none is) (.accept (fun keyword => ?_) ?_)
  · refine (explains_varDecl room).there.mono ?_
    rintro used _ _ ⟨st, rfl, inner⟩ is _
    exact .varDecl (inner keyword is)
  · refine (explains_exprStmt room).there.mono ?_
    rintro used _ _ ⟨st, rfl, inner⟩ _ _
    exact .exprStmt inner

/-- A superclass is derived from two tokens, or from none. -/
theorem explains_superclass : Explains superclass fun used _ parent =>
    DerivesSuperclass used parent := by
  refine .accept (fun less => ?_) (.pure fun _ _ => .none)
  exact .expect fun name => .pure fun _ isName is => .some is isName

/-- A function is derived if its body is: at most 255 parameters, as longer lists are reported. -/
theorem explains_funDeclWith {role : FunRole} {block : Parser (List Stmt)}
    (inner : Explains block fun used _ body => ∃ tokens closing,
      Sequence Clause.declaration.Derives tokens body ∧ closing.kind = .rightBrace ∧
        used = tokens ++ [closing]) :
    Explains (funDeclWith role block) fun used _ decl =>
      Clause.function.Derives used (.funDecl decl) := by
  have names : Explains (listUpToParen "parameters" (expect .identifier "parameter name")) _ :=
    explains_listUpToParen (explains_expect _ _) fun used t is => by
      rw [is.1]
      exact Nat.one_pos
  refine .expect fun name => .expect fun opening => names.bind fun params => .expect fun closing =>
    .expect fun left => inner.bind fun body => .pure ?_
  rintro _ _ ⟨_, right, ⟨items, rfl, each, rfl⟩, isRight, rfl⟩ isLeft isClosing tokens
    ⟨names, rfl, named, separated, few⟩ isOpening isName
  -- each parameter was one token, its own name
  have single : names.map Prod.fst = (names.map Prod.snd).map fun param => [param] := by
    rw [List.map_map]
    exact List.map_congr_left fun item mem => (named item mem).1
  rw [single] at separated
  have kinds : ∀ param ∈ names.map Prod.snd, param.kind = .identifier := by
    intro param mem
    obtain ⟨item, there, rfl⟩ := List.mem_map.mp mem
    exact (named item there).2
  have short : (names.map Prod.snd).length ≤ 255 := by rwa [List.length_map]
  simpa using Clause.Derives.function isName isOpening short kinds separated isClosing isLeft each
    isRight

/-- A class is derived from the derivations of its methods, in their order.  They come one behind
the other, up to the brace that ends the class. -/
theorem explains_classDeclWith {method : Parser FunDecl}
    (inner : Explains method fun used _ decl => Clause.function.Derives used (.funDecl decl)) :
    Explains (classDeclWith method) fun used _ st => ∀ keyword, keyword.kind = .kwClass →
      Clause.declaration.Derives (keyword :: used) st := by
  refine .expect fun name => explains_superclass.bind fun parent => .expect fun opening => ?_
  intro s ready
  refine .congr (ExplainsAt.bind (explains_itemsUpToBrace inner.there s.bound [] s ready)
    fun methods s₁ onward => ?_) rfl
  refine Explains.expect (fun closing => .pure ?_) s₁ (onward.ready ready)
  rintro _ isClosing _ ⟨_, rfl, items, rfl, each, rfl⟩ isOpening tokens superclass isName keyword is
  simpa using Clause.Derives.classDecl is isName superclass isOpening each isClosing

/-- Recovery leaves a part of the tokens behind, from some token on. -/
theorem resume_suffix : ∀ tokens : List Token, resume tokens <:+ tokens
  | [] => List.suffix_refl _
  | t :: rest => by
    unfold resume
    split
    · exact List.suffix_cons t rest
    · exact (resume_suffix rest).trans (List.suffix_cons t rest)

/-- A declaration that is read without a report has met no error, since an error is reported before
it is recovered from. -/
theorem explains_recovering {body : Parser Stmt} {explained : List Token → List Token → Stmt → Prop}
    (inner : Explains body explained) : Explains (recovering body) fun used rest st? =>
      ∃ st, st? = some st ∧ explained used rest st := by
  intro s ready
  refine Ensures.tryCatch (inner.there s ready) fun stop s' _ stopped => ?_
  obtain ⟨onward, reported⟩ := stopped
  cases stop with
  | tooDeep => exact ⟨onward, fun same => nomatch same⟩
  | error =>
    -- recovery drops tokens but no report
    have less := reported rfl
    refine ⟨⟨onward.bound, onward.ending, (resume_suffix _).trans onward.suffix,
      onward.reports⟩, fun silent => ?_⟩
    exact absurd silent (Nat.ne_of_gt less)

/-- A statement that was read.  If it is open no `else` follows, which would have been taken. -/
def StatementRead (used rest : List Token) (st : Stmt) : Prop :=
  ∃ isOpen, (Clause.statement isOpen).Derives used st ∧
    (isOpen = true → ∀ t ∈ rest.head?, t.kind ≠ .kwElse)

/-- A closed statement may be followed by anything, an `else` included. -/
theorem StatementRead.closed {used rest : List Token} {st : Stmt}
    (derives : (Clause.statement false).Derives used st) : StatementRead used rest st :=
  ⟨false, derives, nofun⟩

/-- What the rules for statements take with a given room. -/
structure ExplainsStmts (room : Nat) : Prop where
  declaration : Explains (declaration room) fun used _ st? =>
    ∃ st, st? = some st ∧ Clause.declaration.Derives used st
  classDecl : Explains (classDecl room) fun used _ st => ∀ keyword, keyword.kind = .kwClass →
    Clause.declaration.Derives (keyword :: used) st
  funDecl : ∀ role, Explains (funDecl role room) fun used _ decl =>
    Clause.function.Derives used (.funDecl decl)
  block : Explains (block room) fun used _ body => ∃ tokens closing,
    Sequence Clause.declaration.Derives tokens body ∧ closing.kind = .rightBrace ∧
      used = tokens ++ [closing]
  statement : Explains (statement room) StatementRead
  forStmt : Explains (forStmt room) fun used rest st => ∀ keyword, keyword.kind = .kwFor →
    StatementRead (keyword :: used) rest st
  ifStmt : Explains (ifStmt room) fun used rest st => ∀ keyword, keyword.kind = .kwIf →
    StatementRead (keyword :: used) rest st
  whileStmt : Explains (whileStmt room) fun used rest st => ∀ keyword, keyword.kind = .kwWhile →
    StatementRead (keyword :: used) rest st

namespace ExplainsStmts

variable {room : Nat}

/-- A declaration that was read without a report has not been recovered from, and so is there. -/
theorem declaration_succ (stmts : ExplainsStmts room) :
    Explains (Grammar.declaration (room + 1)) fun used _ st? =>
      ∃ st, st? = some st ∧ Clause.declaration.Derives used st := by
  refine explains_recovering
    (.accept (fun keyword => ?_) (.accept (fun keyword => ?_) (.accept (fun keyword => ?_) ?_)))
  · exact stmts.classDecl.mono fun used _ st derives is => derives keyword is
  · exact ((stmts.funDecl .function).mono fun used _ decl inner is _ => .funDecl is inner).map
  · exact (explains_varDecl room).mono fun used _ st derives is _ _ => .varDecl (derives keyword is)
  · refine stmts.statement.mono ?_
    rintro used _ st ⟨isOpen, inner, -⟩ _ _ _
    exact .statement inner

/-- A block is a sequence of derived declarations in front of its brace.  Each of them is there,
since what was recovered from would have been reported. -/
theorem block_succ (stmts : ExplainsStmts room) :
    Explains (Grammar.block (room + 1)) fun used _ body => ∃ tokens closing,
      Sequence Clause.declaration.Derives tokens body ∧ closing.kind = .rightBrace ∧
        used = tokens ++ [closing] := by
  intro s ready
  refine .congr (ExplainsAt.bind (explains_itemsUpToBrace stmts.declaration s.bound [] s ready)
    fun body s₁ onward => ?_) rfl
  refine Explains.expect (fun closing => .pure ?_) s₁ (onward.ready ready)
  rintro _ isClosing tokens ⟨_, rfl, sequence⟩
  exact ⟨tokens, closing, sequence, isClosing, rfl⟩

/-- A `for` loop is derived as one, although its tree is made of blocks and a `while` loop.  It is
open if its body is. -/
theorem forStmt_succ (stmts : ExplainsStmts room) :
    Explains (Grammar.forStmt (room + 1)) fun used rest st => ∀ keyword, keyword.kind = .kwFor →
      StatementRead (keyword :: used) rest st := by
  refine .expect fun opening => (explains_forInitializer room).bind fun start =>
    (explains_optionalUpTo .semicolon room).bind fun condition => .expect fun semicolon =>
    (explains_optionalUpTo .rightParen room).bind fun step => .expect fun closing =>
    stmts.statement.bind fun body => .pure ?_
  rintro rest tokens ⟨isOpen, inner, closed⟩ isClosing _ steps ends _ tests _ starts isOpening
    keyword is
  rw [← loopOf_eq_forLoop]
  refine ⟨isOpen, ?_, by simpa using closed⟩
  simpa using Clause.Derives.forStmt is isOpening starts tests ends steps isClosing inner

/-- A conditional without a second branch has no `else` behind it, because the rule looks for one.
With that an open statement is known to be followed by none, all the way up. -/
theorem ifStmt_succ (stmts : ExplainsStmts room) :
    Explains (Grammar.ifStmt (room + 1)) fun used rest st => ∀ keyword, keyword.kind = .kwIf →
      StatementRead (keyword :: used) rest st := by
  refine .expect fun opening => (ExplainsExprs.all room).expression.bind fun condition =>
    .expect fun closing => stmts.statement.bind fun thenBranch => .accept (fun other => ?_) ?_
  · refine stmts.statement.bind fun elseBranch => .pure ?_
    rintro rest tokens' ⟨isOpen', inner', closed'⟩ isOther tokens ⟨isOpen, inner, closed⟩ isClosing
      _ tests isOpening keyword is
    -- an open branch would have taken the `else`
    have notOpen : isOpen = false := by
      refine Bool.eq_false_iff.mpr fun opened => ?_
      exact closed opened other rfl isOther
    subst notOpen
    refine ⟨isOpen', ?_, by simpa using closed'⟩
    simpa using Clause.Derives.ifElse is isOpening tests isClosing inner isOther inner'
  · refine .pure ?_
    rintro rest stops tokens ⟨isOpen, inner, closed⟩ isClosing _ tests isOpening keyword is
    refine ⟨true, ?_, fun _ => by simpa using stops⟩
    simpa using Clause.Derives.ifStmt is isOpening tests isClosing inner

/-- A `while` loop is open or closed as its body is. -/
theorem whileStmt_succ (stmts : ExplainsStmts room) :
    Explains (Grammar.whileStmt (room + 1)) fun used rest st => ∀ keyword, keyword.kind = .kwWhile →
      StatementRead (keyword :: used) rest st := by
  refine .expect fun opening => (ExplainsExprs.all room).expression.bind fun condition =>
    .expect fun closing => stmts.statement.bind fun body => .pure ?_
  rintro rest tokens ⟨isOpen, inner, closed⟩ isClosing _ tests isOpening keyword is
  refine ⟨isOpen, ?_, by simpa using closed⟩
  simpa using Clause.Derives.whileStmt is isOpening tests isClosing inner

/-- One level of statements, by their keyword.  A conditional and the loops tell whether they are
open, and all others are closed, so that an `else` behind them is none of theirs. -/
theorem statement_succ (stmts : ExplainsStmts room) :
    Explains (Grammar.statement (room + 1)) StatementRead := by
  refine .peek fun token => ?_
  split
  · next is =>
    refine .taking is nofun (.expect fun semicolon => .pure ?_)
    exact fun _ ends => .closed (.breakStmt is ends)
  · next is =>
    refine .taking is nofun (.expect fun semicolon => .pure ?_)
    exact fun _ ends => .closed (.continueStmt is ends)
  · next is => exact .taking is nofun (stmts.forStmt.mono fun _ _ _ read => read token is)
  · next is => exact .taking is nofun (stmts.ifStmt.mono fun _ _ _ read => read token is)
  · next is =>
    refine .taking is nofun ((explains_printStmt room).mono fun _ _ _ derives => ?_)
    exact .closed (derives token is)
  · next is =>
    exact .taking is nofun ((explains_returnStmt is room).mono fun _ _ _ derives => .closed derives)
  · next is => exact .taking is nofun (stmts.whileStmt.mono fun _ _ _ read => read token is)
  · next is =>
    refine .taking is nofun (.map (stmts.block.mono ?_))
    rintro _ rest _ ⟨_, closing, ⟨items, rfl, each, rfl⟩, isClosing, rfl⟩
    exact .closed (.block is each isClosing)
  · exact (explains_exprStmt room).mono fun _ _ _ inner _ => .closed (.exprStmt inner)

/-- One level more, for all rules of statements at once. -/
theorem succ (stmts : ExplainsStmts room) : ExplainsStmts (room + 1) where
  declaration := stmts.declaration_succ
  classDecl := explains_classDeclWith (stmts.funDecl .method)
  funDecl _ := explains_funDeclWith stmts.block
  block := stmts.block_succ
  statement := stmts.statement_succ
  forStmt := stmts.forStmt_succ
  ifStmt := stmts.ifStmt_succ
  whileStmt := stmts.whileStmt_succ

/-- What the rules of statements read is derived, at every room. -/
theorem all : ∀ room, ExplainsStmts room
  | 0 => ⟨.tooDeep, .tooDeep, fun _ => .tooDeep, .tooDeep, .tooDeep, .tooDeep, .tooDeep, .tooDeep⟩
  | room + 1 => (all room).succ

end ExplainsStmts

/-! ### Programs -/

/-- A parser whose stops are caught.  What it comes to is explained, or else it comes to nothing. -/
theorem explains_caught {α : Type} {x : Parser α} {explained : List Token → List Token → α → Prop}
    (inner : Explains x explained) :
    Explains (tryCatch (some <$> x) fun _ => pure none) fun used rest a? =>
      a? = none ∨ ∃ a, a? = some a ∧ explained used rest a := by
  intro s ready
  have read := (inner.there s ready).mono fun used rest a? _ found =>
    (Or.inr found : a? = none ∨ ∃ a, a? = some a ∧ explained used rest a)
  refine Ensures.tryCatch read fun stop s' _ stopped => ⟨stopped.1, fun _ => ?_⟩
  obtain ⟨used, split⟩ := stopped.1.suffix
  exact ⟨used, split.symm, .inl rfl⟩

/-- The declarations of a program: they go up to the end, or there are more than allowed for.  The
second cannot be for a text, as there are no more declarations than tokens. -/
theorem explains_topLevel (room : Nat) : ∀ fuel before,
    Explains (topLevel room fuel before) fun used rest result =>
      ∃ more, result = before.reverse ++ more ∧ Sequence Clause.declaration.Derives used more ∧
        (rest = [] ∨ fuel ≤ used.length)
  | 0, before => .pure fun _ => ⟨[], (List.append_nil _).symm, .nil, .inr (Nat.zero_le _)⟩
  | fuel + 1, before => by
    have next : Explains (tryCatch (some <$> declaration room) (fun _ => pure none) >>=
          topLevelNext room fuel before) fun used rest result =>
        ∃ more, result = before.reverse ++ more ∧ Sequence Clause.declaration.Derives used more ∧
          (rest = [] ∨ fuel + 1 ≤ used.length) := by
      refine (explains_caught (ExplainsStmts.all room).declaration).bind fun read => ?_
      -- a declaration that nested too deep is reported, one that came to nothing was
      rcases read with - | - | st
      · refine .peek fun t => (explains_report t _).bind fun _ => .pure ?_
        exact fun _ _ impossible => impossible.elim
      · refine (explains_topLevel room fuel before).mono ?_
        rintro _ _ _ _ _ (⟨⟨⟩⟩ | ⟨_, ⟨⟩, _, ⟨⟩, -⟩)
      · refine (explains_topLevel room fuel (st :: before)).mono ?_
        rintro used rest _ ⟨more, rfl, sequence, ends⟩ first (⟨⟨⟩⟩ | ⟨_, ⟨⟩, _, ⟨⟩, here⟩)
        refine ⟨st :: more, ?_, sequence.cons here, ?_⟩
        · rw [List.reverse_cons, List.append_assoc]
          rfl
        · have taken := here.begins.length_pos
          rw [List.length_append]
          exact ends.imp_right fun long => by omega
    intro s ready
    refine .congr ?_ (run_topLevel room fuel before s)
    split
    · next atEnd =>
      refine ⟨.refl s, fun _ => ⟨[], rfl, [], (List.append_nil _).symm, .nil, .inl ?_⟩⟩
      exact List.isEmpty_iff.mp atEnd
    · exact next s ready

/-- Reading a program always comes to an end, since all stops are caught: an error by the
declaration it occurs in, and the lack of room by the loop over the declarations. -/
theorem topLevel_returns (room : Nat) : ∀ fuel before s,
    Ensures (topLevel room fuel before) s (fun _ _ => True) fun _ _ => False
  | 0, _, _ => trivial
  | fuel + 1, before, s => by
    have anyhow : Ensures (some <$> declaration room) s (fun _ _ => True) fun _ _ => True :=
      .intro (fun _ _ _ => trivial) fun _ _ _ => trivial
    have caught : Ensures (tryCatch (some <$> declaration room) fun _ => pure none) s
        (fun _ _ => True) fun _ _ => False :=
      .tryCatch anyhow fun _ _ _ _ => trivial
    have next : Ensures (tryCatch (some <$> declaration room) (fun _ => pure none) >>=
        topLevelNext room fuel before) s (fun _ _ => True) fun _ _ => False := by
      refine caught.bind fun read s₁ _ _ => ?_
      rcases read with - | - | st
      · trivial
      · exact topLevel_returns room fuel before s₁
      · exact topLevel_returns room fuel (st :: before) s₁
    by_cases atEnd : s.rest.isEmpty = true
    · have whole : (topLevel room (fuel + 1) before).run s = .ok before.reverse s := by
        rw [run_topLevel, if_pos atEnd]
        rfl
      exact .intro (fun _ _ _ => trivial) fun _ _ ran => by cases whole.symm.trans ran
    · unfold Ensures
      rw [run_topLevel, if_neg atEnd]
      exact next

end Grammar

/-- A program that is read without a report is derived from its tokens.  There is fuel for as many
declarations as tokens, and each takes one, so the declarations reach the end. -/
theorem Program.derives_of_silent {room : Nat} {tokens : List Token} {ending : Token}
    (ends : ending.kind = .endOfText) (silent : (ofTokens room tokens ending).reports = #[]) :
    Grammar.DerivesProgram tokens (ofTokens room tokens ending).program := by
  let s : Grammar.State := { rest := tokens, ending := ending, bound := tokens.length }
  have ready : Grammar.Ready s := ⟨Nat.le_refl _, ends⟩
  have read := Grammar.explains_topLevel room tokens.length [] s ready
  have returns := Grammar.topLevel_returns room tokens.length [] s
  unfold ofTokens at silent ⊢
  dsimp only at silent ⊢
  split at silent
  · next body final ran =>
    obtain ⟨-, explained⟩ := read.of_ok ran
    dsimp only at silent
    obtain ⟨used, split, _, rfl, ⟨items, rfl, each, rfl⟩, done⟩ := explained (by rw [silent])
    refine ⟨items, each, ?_, rfl⟩
    change tokens = items.flatMap Prod.fst ++ final.rest at split
    -- as many declarations as tokens leave no token over
    have empty : final.rest = [] := by
      rcases done with none | long
      · exact none
      · have lengths := congrArg List.length split
        rw [List.length_append] at lengths
        exact List.eq_nil_of_length_eq_zero (by omega)
    rw [empty, List.append_nil] at split
    exact split
  · next stop final ran => exact (returns.of_error ran).elim

end Arbor
