import Arbor.Grammar.Statement

/-!
# The grammar

The grammar of the language as rules for derivations, without any parser in mind.  A derivation says
which tokens a phrase is made of and which tree it stands for.  Binary operators, calls and property
accesses nest to the left, prefix operators and assignments to the right; an operator of a level has
operands of the next tighter one.

    assignment -> ( call "." )? IDENT "=" assignment | or
    or         -> and ( "or" and )*
    and        -> equality ( "and" equality )*
    equality   -> comparison ( ( "!=" | "==" ) comparison )*
    comparison -> term ( ( ">" | ">=" | "<" | "<=" ) term )*
    term       -> factor ( ( "-" | "+" ) factor )*
    factor     -> unary ( ( "/" | "*" ) unary )*
    unary      -> ( "!" | "-" ) unary | call
    call       -> primary ( "(" arguments? ")" | "." IDENT )*

The grammar of statements would be ambiguous in one place: it must say to which `if` an `else`
belongs.  A statement is *open* if it ends in an `if` without an `else`, which an `else` behind it
would be taken by; the branch in front of an `else` must not be open.

## Main definitions

* `Grammar.Phrase.Derives`: derivations of expressions.
* `Grammar.Clause.Derives`: derivations of statements and declarations.
* `Grammar.DerivesProgram`: derivations of programs.
-/

namespace Arbor
namespace Grammar

/-! ### Expressions -/

/-- The phrases that expressions are made of. -/
inductive Phrase where
  | assignment
  | operators (level : Level)
  | prefixed
  | called
  | primary

/-- The operators of a level. -/
def Level.symbols : Level → List Token.Kind
  | or => [.kwOr]
  | and => [.kwAnd]
  | equality => [.bangEqual, .equalEqual]
  | comparison => [.greater, .greaterEqual, .less, .lessEqual]
  | term => [.minus, .plus]
  | factor => [.slash, .star]

/-- The operands of a level. -/
def Level.operand : Level → Phrase
  | or => .operators .and
  | and => .operators .equality
  | equality => .operators .comparison
  | comparison => .operators .term
  | term => .operators .factor
  | factor => .prefixed

/-- The tree of an operator of a level with its operands. -/
def Level.node : Level → Expr → Token → Expr → Expr
  | or, left, operator, right => .logical left operator right
  | and, left, operator, right => .logical left operator right
  | equality, left, operator, right => .binary left operator right
  | comparison, left, operator, right => .binary left operator right
  | term, left, operator, right => .binary left operator right
  | factor, left, operator, right => .binary left operator right

/-- The operators that the parser takes on a level are those that the grammar lists. -/
theorem Level.accepts_iff {level : Level} {kind : Token.Kind} :
    level.accepts kind = true ↔ kind ∈ level.symbols := by
  constructor
  · intro accepts
    unfold Level.accepts at accepts
    split at accepts <;> first | decide | cases accepts
  · revert kind
    cases level <;> decide

/-- The tree that the grammar gives an operation is the one that the parser builds. -/
theorem Level.node_eq_build (level : Level) : level.node = level.build := by
  cases level <;> rfl

/-- Some items, each a list of tokens, with commas between them. -/
inductive Separated : List (List Token) → List Token → Prop
  | none : Separated [] []
  | one (item : List Token) : Separated [item] item
  | more {item next tokens : List Token} {items : List (List Token)} {comma : Token}
      (isComma : comma.kind = .comma) (others : Separated (next :: items) tokens) :
      Separated (item :: next :: items) (item ++ comma :: tokens)

/-- An expression of a phrase is made of some tokens. -/
inductive Phrase.Derives : Phrase → List Token → Expr → Prop
  | assign {name equals : Token} {tokens : List Token} {value : Expr}
      (isName : name.kind = .identifier) (isEquals : equals.kind = .equal)
      (right : Derives .assignment tokens value) :
      Derives .assignment (name :: equals :: tokens) (.assign name value none)
  | set {dot name equals : Token} {tokens tokens' : List Token} {object value : Expr}
      (left : Derives .called tokens object) (isDot : dot.kind = .dot)
      (isName : name.kind = .identifier) (isEquals : equals.kind = .equal)
      (right : Derives .assignment tokens' value) :
      Derives .assignment (tokens ++ dot :: name :: equals :: tokens') (.setField object name value)
  | operators {tokens : List Token} {e : Expr} (inner : Derives (.operators .or) tokens e) :
      Derives .assignment tokens e
  | operand {level : Level} {tokens : List Token} {e : Expr}
      (inner : Derives level.operand tokens e) : Derives (.operators level) tokens e
  | operation {level : Level} {operator : Token} {tokens tokens' : List Token} {left right : Expr}
      (first : Derives (.operators level) tokens left) (isOperator : operator.kind ∈ level.symbols)
      (second : Derives level.operand tokens' right) :
      Derives (.operators level) (tokens ++ operator :: tokens') (level.node left operator right)
  | unary {operator : Token} {tokens : List Token} {right : Expr}
      (isOperator : operator.kind = .bang ∨ operator.kind = .minus)
      (inner : Derives .prefixed tokens right) :
      Derives .prefixed (operator :: tokens) (.unary operator right)
  | called {tokens : List Token} {e : Expr} (inner : Derives .called tokens e) :
      Derives .prefixed tokens e
  | primary {tokens : List Token} {e : Expr} (inner : Derives .primary tokens e) :
      Derives .called tokens e
  | call {opening paren : Token} {tokens tokens' : List Token} {callee : Expr}
      {items : List (List Token × Expr)} (left : Derives .called tokens callee)
      (isOpening : opening.kind = .leftParen) (few : items.length ≤ 255)
      (each : ∀ item ∈ items, Derives .assignment item.1 item.2)
      (separated : Separated (items.map Prod.fst) tokens') (isParen : paren.kind = .rightParen) :
      Derives .called (tokens ++ opening :: (tokens' ++ [paren]))
        (.call callee paren (items.map Prod.snd))
  | property {dot name : Token} {tokens : List Token} {object : Expr}
      (left : Derives .called tokens object) (isDot : dot.kind = .dot)
      (isName : name.kind = .identifier) :
      Derives .called (tokens ++ [dot, name]) (.getField object name)
  | false {token : Token} (is : token.kind = .kwFalse) :
      Derives .primary [token] (.literal (.bool Bool.false))
  | true {token : Token} (is : token.kind = .kwTrue) :
      Derives .primary [token] (.literal (.bool Bool.true))
  | nil {token : Token} (is : token.kind = .kwNil) : Derives .primary [token] (.literal .nil)
  | number {token : Token} (is : token.kind = .number) :
      Derives .primary [token] (.literal token.literal)
  | string {token : Token} (is : token.kind = .string) :
      Derives .primary [token] (.literal token.literal)
  | var {name : Token} (is : name.kind = .identifier) :
      Derives .primary [name] (.var name none)
  | grouping {opening closing : Token} {tokens : List Token} {e : Expr}
      (isOpening : opening.kind = .leftParen) (inner : Derives .assignment tokens e)
      (isClosing : closing.kind = .rightParen) :
      Derives .primary (opening :: (tokens ++ [closing])) (.grouping e)
  | this {keyword : Token} (is : keyword.kind = .kwThis) :
      Derives .primary [keyword] (.this keyword none)
  | super {keyword dot method : Token} (is : keyword.kind = .kwSuper) (isDot : dot.kind = .dot)
      (isName : method.kind = .identifier) :
      Derives .primary [keyword, dot, method] (.super keyword method none)

/-- An expression that may be left out. -/
inductive DerivesOptional : List Token → Option Expr → Prop
  | none : DerivesOptional [] none
  | some {tokens : List Token} {e : Expr} (inner : Phrase.assignment.Derives tokens e) :
      DerivesOptional tokens (some e)

/-! ### Statements -/

/-- The declaration of a variable. -/
inductive DerivesVarDecl : List Token → Stmt → Prop
  | plain {keyword name semicolon : Token} (is : keyword.kind = .kwVar)
      (isName : name.kind = .identifier) (ends : semicolon.kind = .semicolon) :
      DerivesVarDecl [keyword, name, semicolon] (.varDecl name none)
  | initialized {keyword name equals semicolon : Token} {tokens : List Token} {value : Expr}
      (is : keyword.kind = .kwVar) (isName : name.kind = .identifier)
      (isEquals : equals.kind = .equal) (inner : Phrase.assignment.Derives tokens value)
      (ends : semicolon.kind = .semicolon) :
      DerivesVarDecl (keyword :: name :: equals :: (tokens ++ [semicolon]))
        (.varDecl name (some value))

/-- An expression as a statement. -/
inductive DerivesExprStmt : List Token → Stmt → Prop
  | intro {tokens : List Token} {semicolon : Token} {e : Expr}
      (inner : Phrase.assignment.Derives tokens e) (ends : semicolon.kind = .semicolon) :
      DerivesExprStmt (tokens ++ [semicolon]) (.expr e)

/-- The first part of a `for` loop. -/
inductive DerivesInitializer : List Token → Option Stmt → Prop
  | none {semicolon : Token} (is : semicolon.kind = .semicolon) :
      DerivesInitializer [semicolon] none
  | varDecl {tokens : List Token} {st : Stmt} (inner : DerivesVarDecl tokens st) :
      DerivesInitializer tokens (some st)
  | exprStmt {tokens : List Token} {st : Stmt} (inner : DerivesExprStmt tokens st) :
      DerivesInitializer tokens (some st)

/-- The loop that a `for` loop stands for: what is left out of its head is left out of the tree. -/
def loopOf : Option Stmt → Option Expr → Option Expr → Stmt → Stmt
  | some start, condition, some step, body =>
    .block [start, .loop (condition.getD (.literal (.bool true))) (.block [body, .expr step])]
  | some start, condition, none, body =>
    .block [start, .loop (condition.getD (.literal (.bool true))) body]
  | none, condition, some step, body =>
    .loop (condition.getD (.literal (.bool true))) (.block [body, .expr step])
  | none, condition, none, body => .loop (condition.getD (.literal (.bool true))) body

/-- So is the tree that it gives a `for` loop.  The grammar has its own definitions of both, so that
it can be read without the parser. -/
theorem loopOf_eq_forLoop (start : Option Stmt) (condition step : Option Expr) (body : Stmt) :
    loopOf start condition step body = forLoop start condition step body := by
  cases start <;> cases step <;> rfl

/-- The clauses that programs are made of. -/
inductive Clause where
  | declaration
  | function
  | statement (isOpen : Bool)

/-- The name of a superclass, which may be left out. -/
inductive DerivesSuperclass : List Token → Option Superclass → Prop
  | none : DerivesSuperclass [] none
  | some {less name : Token} (is : less.kind = .less) (isName : name.kind = .identifier) :
      DerivesSuperclass [less, name] (some ⟨name, .var name none⟩)

/-- A clause is made of some tokens.  A function by itself stands for its declaration. -/
inductive Clause.Derives : Clause → List Token → Stmt → Prop
  | classDecl {keyword name opening closing : Token} {tokens : List Token}
      {parent : Option Superclass} {methods : List (List Token × FunDecl)}
      (is : keyword.kind = .kwClass) (isName : name.kind = .identifier)
      (superclass : DerivesSuperclass tokens parent) (isOpening : opening.kind = .leftBrace)
      (each : ∀ method ∈ methods, Derives .function method.1 (.funDecl method.2))
      (isClosing : closing.kind = .rightBrace) :
      Derives .declaration
        (keyword :: name :: (tokens ++ opening :: (methods.flatMap Prod.fst ++ [closing])))
        (.classDecl name parent (methods.map Prod.snd))
  | funDecl {keyword : Token} {tokens : List Token} {st : Stmt} (is : keyword.kind = .kwFun)
      (inner : Derives .function tokens st) : Derives .declaration (keyword :: tokens) st
  | varDecl {tokens : List Token} {st : Stmt} (inner : DerivesVarDecl tokens st) :
      Derives .declaration tokens st
  | statement {isOpen : Bool} {tokens : List Token} {st : Stmt}
      (inner : Derives (.statement isOpen) tokens st) : Derives .declaration tokens st
  | function {name opening closing left right : Token} {params tokens : List Token}
      {body : List (List Token × Stmt)} (isName : name.kind = .identifier)
      (isOpening : opening.kind = .leftParen) (few : params.length ≤ 255)
      (names : ∀ param ∈ params, param.kind = .identifier)
      (separated : Separated (params.map fun param => [param]) tokens)
      (isClosing : closing.kind = .rightParen) (isLeft : left.kind = .leftBrace)
      (each : ∀ item ∈ body, Derives .declaration item.1 item.2)
      (isRight : right.kind = .rightBrace) :
      Derives .function
        (name :: opening ::
          (tokens ++ closing :: left :: (body.flatMap Prod.fst ++ [right])))
        (.funDecl ⟨name, params, body.map Prod.snd⟩)
  | exprStmt {tokens : List Token} {st : Stmt} (inner : DerivesExprStmt tokens st) :
      Derives (.statement false) tokens st
  | forStmt {keyword opening semicolon closing : Token}
      {start condition step tokens : List Token} {start? : Option Stmt}
      {condition? step? : Option Expr} {isOpen : Bool} {body : Stmt}
      (is : keyword.kind = .kwFor) (isOpening : opening.kind = .leftParen)
      (starts : DerivesInitializer start start?) (tests : DerivesOptional condition condition?)
      (ends : semicolon.kind = .semicolon) (steps : DerivesOptional step step?)
      (isClosing : closing.kind = .rightParen) (inner : Derives (.statement isOpen) tokens body) :
      Derives (.statement isOpen)
        (keyword :: opening :: (start ++ (condition ++ semicolon :: (step ++ closing :: tokens))))
        (loopOf start? condition? step? body)
  | ifStmt {keyword opening closing : Token} {condition tokens : List Token} {e : Expr}
      {isOpen : Bool} {st : Stmt} (is : keyword.kind = .kwIf) (isOpening : opening.kind = .leftParen)
      (tests : Phrase.assignment.Derives condition e) (isClosing : closing.kind = .rightParen)
      (inner : Derives (.statement isOpen) tokens st) :
      Derives (.statement true) (keyword :: opening :: (condition ++ closing :: tokens))
        (.ifElse e st none)
  | ifElse {keyword opening closing other : Token} {condition tokens tokens' : List Token}
      {e : Expr} {isOpen : Bool} {st st' : Stmt} (is : keyword.kind = .kwIf)
      (isOpening : opening.kind = .leftParen) (tests : Phrase.assignment.Derives condition e)
      (isClosing : closing.kind = .rightParen) (inner : Derives (.statement false) tokens st)
      (isOther : other.kind = .kwElse) (inner' : Derives (.statement isOpen) tokens' st') :
      Derives (.statement isOpen)
        (keyword :: opening :: (condition ++ closing :: (tokens ++ other :: tokens')))
        (.ifElse e st (some st'))
  | printStmt {keyword semicolon : Token} {tokens : List Token} {e : Expr}
      (is : keyword.kind = .kwPrint) (inner : Phrase.assignment.Derives tokens e)
      (ends : semicolon.kind = .semicolon) :
      Derives (.statement false) (keyword :: (tokens ++ [semicolon])) (.print e)
  | returnStmt {keyword semicolon : Token} {tokens : List Token} {value : Option Expr}
      (is : keyword.kind = .kwReturn) (inner : DerivesOptional tokens value)
      (ends : semicolon.kind = .semicolon) :
      Derives (.statement false) (keyword :: (tokens ++ [semicolon])) (.ret keyword value)
  | whileStmt {keyword opening closing : Token} {condition tokens : List Token} {e : Expr}
      {isOpen : Bool} {body : Stmt} (is : keyword.kind = .kwWhile)
      (isOpening : opening.kind = .leftParen) (tests : Phrase.assignment.Derives condition e)
      (isClosing : closing.kind = .rightParen) (inner : Derives (.statement isOpen) tokens body) :
      Derives (.statement isOpen) (keyword :: opening :: (condition ++ closing :: tokens))
        (.loop e body)
  | breakStmt {keyword semicolon : Token} (is : keyword.kind = .kwBreak)
      (ends : semicolon.kind = .semicolon) :
      Derives (.statement false) [keyword, semicolon] (.brk keyword)
  | continueStmt {keyword semicolon : Token} (is : keyword.kind = .kwContinue)
      (ends : semicolon.kind = .semicolon) :
      Derives (.statement false) [keyword, semicolon] (.cont keyword)
  | block {opening closing : Token} {body : List (List Token × Stmt)}
      (isOpening : opening.kind = .leftBrace)
      (each : ∀ item ∈ body, Derives .declaration item.1 item.2)
      (isClosing : closing.kind = .rightBrace) :
      Derives (.statement false) (opening :: (body.flatMap Prod.fst ++ [closing]))
        (.block (body.map Prod.snd))

/-- A program is made of some tokens: of those of its declarations, one after the other. -/
def DerivesProgram (tokens : List Token) (p : Program) : Prop :=
  ∃ items : List (List Token × Stmt), (∀ item ∈ items, Clause.declaration.Derives item.1 item.2) ∧
    tokens = items.flatMap Prod.fst ∧ p.body = items.map Prod.snd

/-! ### What a derivation begins with -/

/-- The kinds of tokens that an expression can begin with. -/
def startsExpression : Token.Kind → Bool
  | .kwFalse | .kwTrue | .kwNil | .number | .string | .identifier | .leftParen | .kwThis | .kwSuper
  | .bang | .minus => true
  | _ => false

/-- Some tokens begin with one whose kind passes. -/
def Begins (passes : Token.Kind → Bool) (tokens : List Token) : Prop :=
  ∃ first rest, tokens = first :: rest ∧ passes first.kind = true

namespace Begins

variable {passes more : Token.Kind → Bool} {tokens : List Token}

/-- The first token decides. -/
theorem cons {first : Token} (rest : List Token) (passed : passes first.kind = true) :
    Begins passes (first :: rest) :=
  ⟨first, rest, rfl, passed⟩

/-- Behind the first token anything may follow. -/
theorem append (begins : Begins passes tokens) (rest : List Token) :
    Begins passes (tokens ++ rest) := by
  obtain ⟨first, others, rfl, passed⟩ := begins
  exact ⟨first, others ++ rest, rfl, passed⟩

/-- Tokens that pass one condition pass a weaker one. -/
theorem mono (begins : Begins passes tokens)
    (weaker : ∀ kind, passes kind = true → more kind = true) : Begins more tokens := by
  obtain ⟨first, rest, rfl, passed⟩ := begins
  exact ⟨first, rest, rfl, weaker _ passed⟩

/-- What begins with a token is not empty. -/
theorem length_pos (begins : Begins passes tokens) : 0 < tokens.length := by
  obtain ⟨first, rest, rfl, -⟩ := begins
  exact Nat.succ_pos _

end Begins

/-- An expression begins with one of a few tokens.  That tells it from whatever may stand in its
place.  The induction follows the leftmost part of each rule. -/
theorem Phrase.Derives.begins {n : Phrase} {tokens : List Token} {e : Expr}
    (derives : n.Derives tokens e) : Begins startsExpression tokens := by
  induction derives with
  | assign isName _ _ _ => exact .cons _ (by rw [isName]; rfl)
  | set _ _ _ _ _ ih _ => exact ih.append _
  | operators _ ih | operand _ ih | called _ ih | primary _ ih => exact ih
  | operation _ _ _ ih _ => exact ih.append _
  | unary isOperator _ _ => rcases isOperator with is | is <;> exact .cons _ (by rw [is]; rfl)
  | call _ _ _ _ _ _ ih _ => exact ih.append _
  | property _ _ _ ih => exact ih.append _
  | false is | true is | nil is | number is | string is | var is | grouping is _ _ _ | this is
  | super is _ _ => exact .cons _ (by rw [is]; rfl)

/-- What can be called does not begin with a prefix operator.  So an operand that begins with one is
read by the rule for prefix operators and by no other. -/
theorem Phrase.Derives.begins_called {n : Phrase} {tokens : List Token} {e : Expr}
    (derives : n.Derives tokens e) (tight : n = .called ∨ n = .primary) :
    Begins (fun kind => !isPrefixOperator kind) tokens := by
  induction derives with
  | primary _ ih => exact ih (.inr rfl)
  | call _ _ _ _ _ _ ih _ => exact (ih (.inl rfl)).append _
  | property _ _ _ ih => exact (ih (.inl rfl)).append _
  | false is | true is | nil is | number is | string is | var is | grouping is _ _ _ | this is
  | super is _ _ => exact .cons _ (by rw [is]; rfl)
  | _ => rcases tight with ⟨⟨⟩⟩ | ⟨⟨⟩⟩

/-- The kinds of tokens that a declaration can begin with. -/
def startsDeclaration (kind : Token.Kind) : Bool :=
  startsExpression kind || kind.startsStatement || kind == .leftBrace

theorem startsDeclaration_of_expression {kind : Token.Kind} (starts : startsExpression kind = true) :
    startsDeclaration kind = true := by
  rw [startsDeclaration, starts]
  rfl

/-- The kinds of tokens that a statement can begin with that is no declaration. -/
def startsPlain (kind : Token.Kind) : Bool :=
  startsDeclaration kind && kind != .kwClass && kind != .kwFun && kind != .kwVar

theorem startsPlain_of_expression {kind : Token.Kind} (starts : startsExpression kind = true) :
    startsPlain kind = true := by
  unfold startsExpression at starts
  split at starts <;> first | rfl | cases starts

theorem DerivesExprStmt.begins {tokens : List Token} {st : Stmt}
    (derives : DerivesExprStmt tokens st) : Begins startsExpression tokens := by
  obtain ⟨inner, -⟩ := derives
  exact inner.begins.append _

/-- A variable declaration is the only clause that begins with its keyword. -/
theorem DerivesVarDecl.begins {tokens : List Token} {st : Stmt}
    (derives : DerivesVarDecl tokens st) : Begins (· == .kwVar) tokens := by
  cases derives with
  | plain is _ _ | initialized is _ _ _ _ => exact .cons _ (by rw [is]; rfl)

/-- No declaration is empty, or begins with a closing brace or an `else`.  Most begin with a keyword
of their own, and the others with a token that begins an expression. -/
theorem Clause.Derives.begins {n : Clause} {tokens : List Token} {st : Stmt}
    (derives : n.Derives tokens st) : Begins startsDeclaration tokens := by
  induction derives with
  | classDecl is _ _ _ _ _ _ | funDecl is _ _ | forStmt is _ _ _ _ _ _ _ _ | ifStmt is _ _ _ _ _
  | ifElse is _ _ _ _ _ _ _ _ | printStmt is _ _ | returnStmt is _ _ | whileStmt is _ _ _ _ _
  | breakStmt is _ | continueStmt is _ | block is _ _ _ => exact .cons _ (by rw [is]; rfl)
  | function isName _ _ _ _ _ _ _ _ _ => exact .cons _ (by rw [isName]; rfl)
  | statement _ ih => exact ih
  | varDecl inner =>
    refine inner.begins.mono fun kind is => ?_
    rw [beq_iff_eq.mp is]
    rfl
  | exprStmt inner => exact inner.begins.mono fun _ => startsDeclaration_of_expression

/-- A statement does not begin with the keyword of a declaration either. -/
theorem Clause.Derives.begins_statement {isOpen : Bool} {tokens : List Token} {st : Stmt}
    (derives : (Clause.statement isOpen).Derives tokens st) : Begins startsPlain tokens := by
  cases derives with
  | exprStmt inner => exact inner.begins.mono fun _ => startsPlain_of_expression
  | forStmt is | ifStmt is | ifElse is | printStmt is | returnStmt is | whileStmt is | breakStmt is
  | continueStmt is | block is => exact .cons _ (by rw [is]; rfl)

/-- A function begins with its name, as its keyword belongs to the declaration around it. -/
theorem Clause.Derives.begins_function {tokens : List Token} {st : Stmt}
    (derives : Clause.function.Derives tokens st) : Begins (· == .identifier) tokens := by
  cases derives with
  | function isName => exact .cons _ (by rw [isName]; rfl)

/-! ### Derivations of what can be assigned to -/

/-- A variable is derived from its name alone.  In parentheses it would be a grouping, and not a
variable. -/
theorem Phrase.Derives.of_var {n : Phrase} {tokens : List Token} {name : Token} {hops : Option Nat}
    (derives : n.Derives tokens (.var name hops)) : tokens = [name] ∧ name.kind = .identifier := by
  generalize tree : Expr.var name hops = e at derives
  induction derives with
  | operators _ ih | operand _ ih | called _ ih | primary _ ih => exact ih tree
  | @operation level => cases level <;> cases tree
  | var is =>
    cases tree
    exact ⟨rfl, is⟩
  | _ => cases tree

/-- A property access is derived from its object, a dot and the name, on whatever level it is asked
for: the levels above only pass it on. -/
theorem Phrase.Derives.of_getField {n : Phrase} {tokens : List Token} {object : Expr} {name : Token}
    (derives : n.Derives tokens (.getField object name)) :
    ∃ used dot, tokens = used ++ [dot, name] ∧ Phrase.called.Derives used object ∧
      dot.kind = .dot ∧ name.kind = .identifier := by
  generalize tree : Expr.getField object name = e at derives
  induction derives with
  | operators _ ih | operand _ ih | called _ ih | primary _ ih => exact ih tree
  | @operation level => cases level <;> cases tree
  | property left isDot isName =>
    cases tree
    exact ⟨_, _, rfl, left, isDot, isName⟩
  | _ => cases tree

end Grammar
end Arbor
