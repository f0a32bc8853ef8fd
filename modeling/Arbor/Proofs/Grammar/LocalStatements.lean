import Arbor.Proofs.Grammar.Completeness
import Arbor.Proofs.Grammar.Locality
import Arbor.Proofs.Grammar.Soundness

/-!
# Statements in a larger text

Statements end with a semicolon or a brace, so a parser that has read one does not look further.  The
one exception is an `if` that may still get an `else`; it is read alike if no `else` follows.

Recovery after an error is local too.  It drops tokens up to the next boundary, and if there is one
among the tokens at hand, then it is the same in the larger text.

## Main definitions

* `Grammar.declared`: a declaration without recovery.

## Main statements

* `Grammar.local_declared`: declarations are read alike wherever they stand.
-/

namespace Arbor
namespace Grammar

open Stateful

variable {c : Context}

/-! ### Simple statements -/

/-- A variable declaration ends with its semicolon and so does not look further, whether it has an
initializer or not. -/
theorem local_varDecl (room : Nat) :
    Local c True True (varDecl room) (varDecl room) (Stmt.relined c.line) := by
  cases room with
  | zero => exact .tooDeep
  | succ room =>
    refine (local_expect _ _).bind fun name =>
      .accept (fun _ => .weaken ?_) ?_ fun _ => .inl trivial
    · refine (local_expression room).some.bind fun initializer => ?_
      exact local_closing _ _ fun _ => rfl
    · exact local_closing _ _ fun _ => rfl

/-- An expression statement is calm, although the expression alone is not: the semicolon that it is
bound to end with keeps the expression from being looked behind. -/
theorem local_exprStmt (room : Nat) :
    Local c True True (exprStmt room) (exprStmt room) (Stmt.relined c.line) := by
  cases room with
  | zero => exact .tooDeep
  | succ room =>
    exact (local_expression room).bind fun value => local_closing _ _ fun _ => rfl

/-- A print statement is calm for the same reason. -/
theorem local_printStmt (room : Nat) :
    Local c True True (printStmt room) (printStmt room) (Stmt.relined c.line) := by
  cases room with
  | zero => exact .tooDeep
  | succ room =>
    exact (local_expression room).bind fun value => local_closing _ _ fun _ => rfl

/-- An expression that may be left out is not calm.  Whether it is there depends on the next token,
and behind the last token there may be another one in the larger text. -/
theorem local_optionalUpTo (kind : Token.Kind) (room : Nat) :
    Local c False False (optionalUpTo kind room) (optionalUpTo kind room)
      (Option.map (Expr.relined c.line)) := by
  intro s fits
  have none : Local c False False (pure none) (pure none) (Option.map (Expr.relined c.line)) :=
    .pure rfl
  exact .isAt (run_optionalUpTo kind room s) (run_optionalUpTo kind room (c.embed s)) (none s fits)
    ((local_expression room).some.weaken s fits) False.elim

/-- A return statement ends with its semicolon.  Its keyword was taken by the caller and is part of
the tree, so it has to be moved to its new line along with the rest. -/
theorem local_returnStmt (keyword : Token) (room : Nat) :
    Local c True True (returnStmt keyword room) (returnStmt (keyword.relined c.line) room)
      (Stmt.relined c.line) := by
  cases room with
  | zero => exact .tooDeep
  | succ room =>
    have whole : Local c True True
        (optionalUpTo .semicolon room >>= fun value =>
          expect .semicolon "';' after return value" >>= fun _ => pure (Stmt.ret keyword value))
        (optionalUpTo .semicolon room >>= fun value =>
          expect .semicolon "';' after return value" >>= fun _ =>
            pure (Stmt.ret (keyword.relined c.line) value)) (Stmt.relined c.line) :=
      (local_optionalUpTo _ room).bind fun value => local_closing _ _ fun _ => rfl
    intro s fits
    exact (whole s fits).of_run (.refl s) (run_returnStmt keyword room s)
      (run_returnStmt _ room (c.embed s)) .inr

/-! ### Parts of statements -/

/-- The first clause of a loop always takes a token: its semicolon, or the declaration or expression
that ends with one. -/
theorem local_forInitializer (room : Nat) :
    Local c False True (forInitializer room) (forInitializer room)
      (Option.map (Stmt.relined c.line)) := by
  refine .accept (fun _ => .pure rfl) (.accept (fun _ => .weaken ?_) ?_ False.elim) False.elim
  · exact (local_varDecl room).some.mono False.elim id
  · exact (local_exprStmt room).some.mono False.elim id

/-- Moving the lines commutes with what a `for` loop stands for, because the blocks and the loop
that it is turned into have no lines of their own. -/
theorem relined_forLoop (line : Int → Int) (initializer : Option Stmt)
    (condition increment : Option Expr) (body : Stmt) :
    (forLoop initializer condition increment body).relined line =
      forLoop (initializer.map (Stmt.relined line)) (condition.map (Expr.relined line))
        (increment.map (Expr.relined line)) (body.relined line) := by
  cases initializer <;> cases condition <;> cases increment <;> rfl

/-- A function ends with the brace of its body, so it is calm as soon as its block is.  The name,
the parentheses and the parameters are followed by tokens of the function itself. -/
theorem local_funDeclWith (role : FunRole) {block : Parser (List Stmt)}
    (each : Local c True True block block (List.map (Stmt.relined c.line))) :
    Local c True True (funDeclWith role block) (funDeclWith role block)
      (FunDecl.relined c.line) := by
  refine (local_expect _ _).bind fun name => (local_expect _ _).bind fun _ => ?_
  refine (local_listUpToParen ((local_expect _ _).mono False.elim id)).bind fun params => ?_
  refine (local_expect _ _).bind fun _ => (local_expect _ _).bind fun _ => ?_
  refine each.andThen fun body => .pure ?_
  rw [FunDecl.relined, Stmt.allRelined_eq_map]

/-- A class may have a superclass or not.  The brace that follows either way is not part of this
rule, so the rule is not calm by itself. -/
theorem local_superclass :
    Local c False False superclass superclass (Option.map (Superclass.relined c.line)) :=
  .accept (fun _ => .weaken (local_closing _ _ fun _ => rfl)) (.pure rfl) False.elim

/-- A class ends with its brace; its methods come one behind the other up to there.  The brace has
to be among the tokens, so what stands behind them is not asked for. -/
theorem local_classDeclWith {method : Parser FunDecl}
    (each : Local c True True method method (FunDecl.relined c.line)) :
    Local c True True (classDeclWith method) (classDeclWith method) (Stmt.relined c.line) := by
  refine (local_expect _ _).bind fun name => local_superclass.bind fun parent => ?_
  refine (local_expect _ _).bind fun _ s fits => .bound ?_
  have items : LocalAt c False False (itemsUpToBrace (some <$> method) s.bound [])
      (itemsUpToBrace (some <$> method) c.bound []) (List.map (FunDecl.relined c.line)) s :=
    local_itemsUpToBrace (fun s fits _ => each.some.mono False.elim id s fits) fits fits.fuels []
  refine items.bind (fun methods s₁ onward _ => ?_) fun _ => .inr trivial
  refine .of (fits.onward onward) (local_closing _ _ fun _ => ?_)
  rw [Stmt.relined, FunDecl.allRelined_eq_map]

/-! ### Recovery -/

/-- Recovery looks at kinds only, so it drops the same tokens whatever lines they are on. -/
theorem resume_map_relined (line : Int → Int) : ∀ tokens : List Token,
    resume (tokens.map (Token.relined line)) = (resume tokens).map (Token.relined line)
  | [] => rfl
  | t :: rest => by
    have next : ((rest.map (Token.relined line)).head?.any fun t => t.kind.startsStatement) =
        rest.head?.any fun t => t.kind.startsStatement := by
      cases rest <;> rfl
    rw [List.map_cons, resume, resume, Token.kind_relined, next]
    split
    · rfl
    · exact resume_map_relined line rest

/-- A boundary among some tokens is the next one whatever follows them.  Recovery looks one token
ahead, so it is not enough that there are tokens left: it must have ended in front of one. -/
theorem resume_append {more : List Token} : ∀ tokens : List Token,
    resume tokens ≠ [] ∨ more = [] → resume (tokens ++ more) = resume tokens ++ more
  | _, .inr empty => by rw [empty, List.append_nil, List.append_nil]
  | [], .inl bounded => absurd rfl bounded
  | [t], .inl bounded => by
    rw [resume] at bounded
    split at bounded
    · exact absurd rfl bounded
    · exact absurd rfl bounded
  | t :: next :: rest, .inl bounded => by
    have head : (next :: rest ++ more).head? = (next :: rest).head? := rfl
    rw [List.cons_append, resume, head]
    rw [resume] at bounded ⊢
    split
    · rfl
    · next inside =>
      rw [if_neg inside] at bounded
      exact resume_append (next :: rest) (.inl bounded)

/-- Recovery drops a token in any case.  Without that an error at a word that begins a statement
would be met again and again. -/
theorem length_resume_lt : ∀ {tokens : List Token}, tokens ≠ [] →
    (resume tokens).length < tokens.length
  | [], inhabited => absurd rfl inhabited
  | t :: rest, _ => by
    rw [resume]
    split
    · exact Nat.lt_succ_self _
    · exact Nat.lt_succ_of_le (resume_suffix rest).length_le

/-- A declaration that is read without an error is handed on as it is. -/
theorem run_recovering_ok {body : Parser Stmt} {s s' : State} {st : Stmt}
    (ran : body.run s = .ok st s') : (recovering body).run s = .ok (some st) s' := by
  have inner : (some <$> body) s = .ok (some st) s' := run_map_ok.mpr ⟨st, ran, rfl⟩
  change EStateM.tryCatch (some <$> body) _ s = _
  unfold EStateM.tryCatch
  rw [inner]

/-- After an error the state is what the declaration left, with the tokens up to the boundary
dropped; what was reported stays reported. -/
theorem run_recovering_error {body : Parser Stmt} {s s' : State}
    (ran : body.run s = .error .error s') :
    (recovering body).run s = .ok none (s'.facing (resume s'.rest)) := by
  have inner : (some <$> body) s = .error .error s' := run_map_error some ran
  change EStateM.tryCatch (some <$> body) _ s = _
  unfold EStateM.tryCatch
  rw [inner]
  rfl

/-- Nothing recovers from nesting too deeply. -/
theorem run_recovering_tooDeep {body : Parser Stmt} {s s' : State}
    (ran : body.run s = .error .tooDeep s') : (recovering body).run s = .error .tooDeep s' := by
  have inner : (some <$> body) s = .error .tooDeep s' := run_map_error some ran
  change EStateM.tryCatch (some <$> body) _ s = _
  unfold EStateM.tryCatch
  rw [inner]
  rfl

/-- Recovery takes at least one token, if there is one, and finds the same boundary.  An error was
met either in front of a token, which is dropped, or at the end, which recovery does not leave. -/
theorem localAt_recovering {calm : Prop} {body : Parser Stmt} {s : State}
    (each : Local c calm True body body (Stmt.relined c.line)) (fits : c.Fits s)
    (tokens : s.rest ≠ []) :
    LocalAt c False True (recovering body) (recovering body) (Option.map (Stmt.relined c.line)) s := by
  unfold LocalAt Ensures
  cases ran : body.run s with
  | ok st s' =>
    obtain ⟨onward, less, same⟩ := (each s fits).of_ok ran
    rw [run_recovering_ok ran]
    refine ⟨onward, less, fun sees => ?_⟩
    exact run_recovering_ok (same (.inl (sees.resolve_right id)))
  | error stop s' =>
    obtain ⟨onward, same⟩ := (each s fits).of_error ran
    cases stop with
    | tooDeep =>
      rw [run_recovering_tooDeep ran]
      exact ⟨onward, fun sees => run_recovering_tooDeep (same sees)⟩
    | error =>
      have further : Onward s' (s'.facing (resume s'.rest)) :=
        ⟨rfl, rfl, resume_suffix s'.rest, Nat.le_refl _⟩
      rw [run_recovering_error ran]
      refine ⟨onward.trans further, fun _ => ?_, fun sees => ?_⟩
      · by_cases empty : s'.rest = []
        · change (resume s'.rest).length < s.rest.length
          rw [empty]
          exact List.length_pos_iff.mpr tokens
        · exact Nat.lt_of_lt_of_le (length_resume_lt empty) onward.suffix.length_le
      · have sees := sees.resolve_right id
        have boundary : resume (s'.rest.map (Token.relined c.line) ++ c.more) =
            (resume s'.rest).map (Token.relined c.line) ++ c.more := by
          rw [resume_append, resume_map_relined]
          refine sees.imp (fun bounded => ?_) And.left
          rw [resume_map_relined, Ne, List.map_eq_nil_iff]
          exact bounded
        rw [run_recovering_error (same (sees.before further))]
        refine congrArg (EStateM.Result.ok none) ?_
        unfold Context.embed State.facing
        rw [boundary]

/-! ### Statements and declarations -/

/-- A declaration or statement, without recovery from an error in it. -/
def declared (room : Nat) : Parser Stmt :=
  declaredWith (classDecl room) (.funDecl <$> funDecl .function room) (varDecl room) (statement room)

/-- With room left, a declaration is one without recovery, recovered from. -/
theorem declaration_succ (room : Nat) : declaration (room + 1) = recovering (declared room) :=
  rfl

/-- What the rules for statements do with a given room.  An `else` behind the tokens would belong to
the last statement. -/
structure LocalStmts (c : Context) (room : Nat) : Prop where
  declaration : ∀ s, c.Fits s → s.rest ≠ [] → LocalAt c False True (declaration room)
    (declaration room) (Option.map (Stmt.relined c.line)) s
  classDecl : Local c True True (classDecl room) (classDecl room) (Stmt.relined c.line)
  funDecl : ∀ role, Local c True True (funDecl role room) (funDecl role room) (FunDecl.relined c.line)
  block : Local c True True (block room) (block room) (List.map (Stmt.relined c.line))
  statement : Local c (NoElse c.more) True (statement room) (statement room) (Stmt.relined c.line)
  forStmt : Local c (NoElse c.more) True (forStmt room) (forStmt room) (Stmt.relined c.line)
  ifStmt : Local c (NoElse c.more) True (ifStmt room) (ifStmt room) (Stmt.relined c.line)
  whileStmt : Local c (NoElse c.more) True (whileStmt room) (whileStmt room) (Stmt.relined c.line)

namespace LocalStmts

variable {room : Nat}

/-- Without recovery, declarations are calm unless an `else` follows: they are classes, functions
and variables, which are calm in any case, or statements. -/
theorem declared (rules : LocalStmts c room) :
    Local c (NoElse c.more) True (declared room) (declared room) (Stmt.relined c.line) := by
  have takes {P : Prop} (_ : NoElse c.more) : True ∨ P := .inl trivial
  refine .accept (fun _ => .weaken ?_)
    (.accept (fun _ => .weaken ?_) (.accept (fun _ => .weaken ?_) ?_ takes) takes) takes
  · exact rules.classDecl.mono (fun _ => trivial) id
  · refine Local.mono ?_ (fun _ => trivial) id
    exact (rules.funDecl .function).map fun _ => rfl
  · exact (local_varDecl room).mono (fun _ => trivial) id
  · exact rules.statement

/-- One level of statements, by the word that they begin with.  The word is looked at first and
taken then, so both runs have to see it before either moves. -/
theorem statement_succ (rules : LocalStmts c room) :
    Local c (NoElse c.more) True (Grammar.statement (room + 1)) (Grammar.statement (room + 1))
      (Stmt.relined c.line) := by
  intro s fits
  refine .peek ?_ fun _ => trivial
  rw [Token.kind_relined]
  cases is : s.current.kind with
  | kwBreak | kwContinue =>
    refine .taking fits is nofun fun _ => .weaken ?_
    exact local_closing _ _ fun _ => rfl
  | kwFor => exact .taking fits is nofun fun _ => .weaken rules.forStmt
  | kwIf => exact .taking fits is nofun fun _ => .weaken rules.ifStmt
  | kwPrint =>
    exact .taking fits is nofun fun _ => (local_printStmt room).mono (fun _ => trivial) False.elim
  | kwReturn =>
    refine .taking fits is nofun fun _ => ?_
    exact (local_returnStmt s.current room).mono (fun _ => trivial) False.elim
  | kwWhile => exact .taking fits is nofun fun _ => .weaken rules.whileStmt
  | leftBrace =>
    refine .taking fits is nofun fun _ => (rules.block.map fun body => ?_).mono
      (fun _ => trivial) False.elim
    rw [Stmt.relined, Stmt.allRelined_eq_map]
  | _ => exact (local_exprStmt room).mono (fun _ => trivial) id s fits

/-- One level of `for` loops: what stands in the parentheses is followed by the parenthesis, and the
body decides whether the loop is calm. -/
theorem forStmt_succ (rules : LocalStmts c room) :
    Local c (NoElse c.more) True (Grammar.forStmt (room + 1)) (Grammar.forStmt (room + 1))
      (Stmt.relined c.line) := by
  refine (local_expect _ _).bind fun _ => (local_forInitializer room).bind fun initializer => ?_
  refine (local_optionalUpTo _ room).bind fun condition => (local_expect _ _).bind fun _ => ?_
  refine (local_optionalUpTo _ room).bind fun increment => (local_expect _ _).bind fun _ => ?_
  exact rules.statement.andThen fun body => .pure (relined_forLoop c.line _ _ _ _).symm

/-- One level of conditionals.  Behind the first branch an `else` is looked for, which is where an
`else` in the larger text would make a difference. -/
theorem ifStmt_succ (rules : LocalStmts c room) :
    Local c (NoElse c.more) True (Grammar.ifStmt (room + 1)) (Grammar.ifStmt (room + 1))
      (Stmt.relined c.line) := by
  refine (local_expect _ _).bind fun _ => (local_expression room).bind fun condition => ?_
  refine (local_expect _ _).bind fun _ => rules.statement.andThen fun thenBranch => ?_
  -- this is the place where a parser looks behind a finished statement
  refine .accept (fun _ => .weaken ?_) (.pure rfl) .inr
  exact rules.statement.andThen fun elseBranch => .pure rfl

/-- One level of `while` loops, whose last part is their body. -/
theorem whileStmt_succ (rules : LocalStmts c room) :
    Local c (NoElse c.more) True (Grammar.whileStmt (room + 1)) (Grammar.whileStmt (room + 1))
      (Stmt.relined c.line) := by
  refine (local_expect _ _).bind fun _ => (local_expression room).bind fun condition => ?_
  refine (local_expect _ _).bind fun _ => rules.statement.andThen fun body => .pure rfl

/-- One level of blocks.  A block ends with its brace, so it is calm even if the last statement in
it is a conditional: that one is followed by the brace. -/
theorem block_succ (rules : LocalStmts c room) :
    Local c True True (Grammar.block (room + 1)) (Grammar.block (room + 1))
      (List.map (Stmt.relined c.line)) := by
  refine fun s fits => .bound ?_
  have items : LocalAt c False False (itemsUpToBrace (Grammar.declaration room) s.bound [])
      (itemsUpToBrace (Grammar.declaration room) c.bound []) (List.map (Stmt.relined c.line)) s :=
    local_itemsUpToBrace rules.declaration fits fits.fuels []
  refine items.bind (fun statements s₁ onward _ => ?_) fun _ => .inr trivial
  exact .of (fits.onward onward) (local_closing _ _ fun _ => rfl)

/-- One level more, for all rules at once. -/
theorem succ (rules : LocalStmts c room) : LocalStmts c (room + 1) where
  declaration _ fits tokens := localAt_recovering rules.declared fits tokens
  classDecl := local_classDeclWith (rules.funDecl .method)
  funDecl role := local_funDeclWith role rules.block
  block := rules.block_succ
  statement := rules.statement_succ
  forStmt := rules.forStmt_succ
  ifStmt := rules.ifStmt_succ
  whileStmt := rules.whileStmt_succ

/-- The rules are local at every room, by induction on it.  Without room they stop in both texts. -/
theorem all (c : Context) : ∀ room, LocalStmts c room
  | 0 => ⟨fun s fits _ => Local.tooDeep s fits, .tooDeep, fun _ => .tooDeep, .tooDeep, .tooDeep,
      .tooDeep, .tooDeep, .tooDeep⟩
  | room + 1 => (all c room).succ

end LocalStmts

/-- Declarations are read alike wherever they stand, as long as no `else` follows. -/
theorem local_declared (room : Nat) :
    Local c (NoElse c.more) True (declared room) (declared room) (Stmt.relined c.line) :=
  (LocalStmts.all c room).declared

end Grammar
end Arbor
